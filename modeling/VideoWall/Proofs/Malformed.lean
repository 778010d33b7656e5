import Mathlib.Logic.Function.Iterate
import VideoWall.Proofs.Records

/-! Buffers of any bytes, well-formed or not.

    Every buffer is some records followed by bytes at whose front no record can be read.
    `Reader.next` is one call of the reader, and `Reader.next?` the same call with every access to
    the buffer checked. `decode_malformed` says what comes of any buffer, call by call: the records,
    at most one complaint, which says what is wrong with the bytes behind them, and nothing ever
    after. -/

namespace VideoWall.Drm

/-! ### Accesses that are checked -/

/-- The `width` bytes from `offset` on, if the buffer has them. -/
def slice? (bytes : List UInt8) (offset width : Nat) : Option (List UInt8) :=
  if offset + width ≤ bytes.length then some ((bytes.drop offset).take width) else none

/-- The bytes from `offset` on, if the buffer reaches that far. -/
def tail? (bytes : List UInt8) (offset : Nat) : Option (List UInt8) :=
  if offset ≤ bytes.length then some (bytes.drop offset) else none

/-- `field`, checked. -/
def field? (bytes : List UInt8) (offset width : Nat) : Option Nat :=
  (slice? bytes offset width).map number

/-- `Flip.read`, checked. -/
def Flip.read? (record : List UInt8) : Option Flip := do
  let userData ← field? record 8 8
  let seconds ← field? record 16 4
  let micros ← field? record 20 4
  let sequence ← field? record 24 4
  let crtc ← field? record 28 4
  return ⟨.ofNat userData, .ofNat seconds, .ofNat micros, .ofNat sequence, .ofNat crtc⟩

/-- `classify`, checked. -/
def classify? (kind : UInt32) (record : List UInt8) : Option (Except DecodeError Event) :=
  if kind = 1 ∨ kind = 2 then
    if record.length < flipLength then some (.error (.badLength kind record.length))
    else do
      let body ← Flip.read? record
      return if kind = 1 then .ok (.vblank body) else .ok (.flipComplete body)
  else if kind = 3 then some (.ok .crtcSequence)
  else some (.ok (.other kind))

/-- `first`, checked. -/
def first? (bytes : List UInt8) : Option (Except DecodeError (Event × Nat)) :=
  if bytes.length < headerLength then some (.error (.truncated headerLength bytes.length))
  else do
    let kind ← field? bytes 0 4
    let length ← field? bytes 4 4
    if length < headerLength then return .error (.badLength (.ofNat kind) length)
    else if bytes.length < length then return .error (.truncated length bytes.length)
    else do
      let record ← slice? bytes 0 length
      let event ← classify? (.ofNat kind) record
      return event.map fun e => (e, length)

namespace Reader

/-- One call of the reader: the item it answers with, if any, and the bytes it is left with. -/
def next (bytes : List UInt8) : Option (Except DecodeError Event) × List UInt8 :=
  match step bytes with
  | none => (none, bytes)
  | some (item, rest) => (some item, rest)

/-- One call of the reader, checked: it gives nothing if any access is out of bounds. -/
def next? (bytes : List UInt8) : Option (Option (Except DecodeError Event) × List UInt8) :=
  if bytes = [] then some (none, []) else do
    match ← first? bytes with
    | .ok (e, n) =>
      let rest ← tail? bytes n
      return (some (.ok e), rest)
    | .error cause => return (some (.error cause), [])

/-- The bytes that the reader is left with after `n` calls. -/
def left (bytes : List UInt8) (n : Nat) : List UInt8 := (fun b => (next b).2)^[n] bytes

end Reader

/-- What is wrong with bytes at whose front no record can be read: they do not hold a header, or the
    length in their header is shorter than a header, longer than they are, or too short for a body,
    whichever comes first. -/
def complaint (rest : List UInt8) : DecodeError :=
  if rest.length < 8 then .truncated 8 rest.length
  else if field rest 4 4 < 8 then .badLength (.ofNat (field rest 0 4)) (field rest 4 4)
  else if rest.length < field rest 4 4 then .truncated (field rest 4 4) rest.length
  else .badLength (.ofNat (field rest 0 4)) (field rest 4 4)

/-! ### No access is out of bounds -/

theorem field?_eq {bytes : List UInt8} {offset width : Nat} (h : offset + width ≤ bytes.length) :
    field? bytes offset width = some (field bytes offset width) := by
  rw [field?, slice?, if_pos h]
  rfl

/-- A body is only read off a record that is long enough. -/
theorem Flip.read?_eq {record : List UInt8} (h : flipLength ≤ record.length) :
    Flip.read? record = some (Flip.read record) := by
  rw [flipLength] at h
  rw [Flip.read?, field?_eq (by omega), field?_eq (by omega), field?_eq (by omega),
    field?_eq (by omega), field?_eq (by omega)]
  rfl

theorem classify?_eq (kind : UInt32) (record : List UInt8) :
    classify? kind record = some (classify kind record) := by
  rw [classify?, classify]
  split
  · split
    · rfl
    · next h =>
      rw [Flip.read?_eq (Nat.not_lt.1 h)]
      show some _ = some _
      congr 1
  · split <;> rfl

theorem first?_eq (bytes : List UInt8) : first? bytes = some (first bytes) := by
  rw [first?, first]
  split
  · rfl
  · next h =>
    rw [headerLength] at h
    rw [field?_eq (by omega), field?_eq (by omega)]
    dsimp only [Option.bind_eq_bind, Option.bind_some]
    split
    · rfl
    · split
      · rfl
      · next hl =>
        have hs : slice? bytes 0 (field bytes 4 4) = some (bytes.take (field bytes 4 4)) := by
          rw [slice?, if_pos (by omega), List.drop_zero]
        rw [hs, Option.bind_some, classify?_eq]
        rfl

namespace Reader

theorem next?_eq (bytes : List UInt8) : next? bytes = some (next bytes) := by
  cases bytes with
  | nil => rfl
  | cons b bs =>
    rw [next?, if_neg (List.cons_ne_nil b bs), first?_eq, next, step]
    cases hf : first (b :: bs) with
    | error cause => rfl
    | ok p =>
      -- a record that was read lies within the buffer
      obtain ⟨r, -, hsplit⟩ := exists_record_of_first (e := p.1) (n := p.2) hf
      have hr := first_append r ((b :: bs).drop p.2)
      rw [hsplit, hf] at hr
      have hn : p.2 ≤ (b :: bs).length := by
        have hp : p.2 = r.bytes.length := congrArg Prod.snd (Except.ok.inj hr)
        rw [hp, ← hsplit, List.length_append]
        omega
      have ht : tail? (b :: bs) p.2 = some ((b :: bs).drop p.2) := if_pos hn
      show ((tail? (b :: bs) p.2).bind fun rest => some (some (Except.ok p.1), rest)) = _
      rw [ht, Option.bind_some]

/-! ### Call by call -/

theorem left_succ (bytes : List UInt8) (n : Nat) : left bytes (n + 1) = (next (left bytes n)).2 :=
  Function.iterate_succ_apply' ..

/-- The calls answer with the items of the buffer, in order, and then with nothing. -/
theorem next_left (bytes : List UInt8) (n : Nat) :
    (next (left bytes n)).1 = (decode bytes)[n]? := by
  induction n generalizing bytes with
  | zero =>
    show (next bytes).1 = _
    cases hs : step bytes with
    | none => rw [next, hs, decode, items, hs]; rfl
    | some p => rw [next, hs, decode_of_step hs]; rfl
  | succ n ih =>
    have hl : left bytes (n + 1) = left (next bytes).2 n := Function.iterate_succ_apply ..
    rw [hl, ih]
    cases hs : step bytes with
    | none => rw [next, hs, decode, items, hs]; rfl
    | some p => rw [next, hs, decode_of_step hs, List.getElem?_cons_succ]

/-- A call that answers with an item uses bytes up. -/
theorem length_left_lt {bytes : List UInt8} {n : Nat} (h : n < (decode bytes).length) :
    (left bytes (n + 1)).length < (left bytes n).length := by
  have hn := next_left bytes n
  rw [List.getElem?_eq_getElem h, next] at hn
  rw [left_succ, next]
  cases hs : step (left bytes n) with
  | none => rw [hs] at hn; cases hn
  | some p => exact length_lt_of_step hs

end Reader

/-! ### Records, and what comes behind them -/

/-- Every buffer is some records, and then bytes at whose front no record can be read. -/
theorem exists_cut (bytes : List UInt8) : ∃ (rs : List Record) (rest : List UInt8),
    Record.concat rs ++ rest = bytes ∧ (rest ≠ [] → ∃ cause, first rest = .error cause) := by
  induction hl : bytes.length using Nat.strong_induction_on generalizing bytes with
  | _ l ih =>
    cases bytes with
    | nil => exact ⟨[], [], rfl, fun h => absurd rfl h⟩
    | cons b bs =>
      cases hf : first (b :: bs) with
      | error cause => exact ⟨[], b :: bs, rfl, fun _ => ⟨cause, hf⟩⟩
      | ok p =>
        obtain ⟨r, -, hsplit⟩ := exists_record_of_first (e := p.1) (n := p.2) hf
        have hlt : ((b :: bs).drop p.2).length < l := by
          have hle := r.header_le
          have hlen := congrArg List.length hsplit
          rw [List.length_append] at hlen
          omega
        obtain ⟨rs, rest, hcut, hrest⟩ := ih _ hlt _ rfl
        refine ⟨r :: rs, rest, ?_, hrest⟩
        rw [Record.concat_cons, List.append_assoc, hcut, hsplit]

/-- The reason why no record can be read is what is wrong with the bytes; a length that was
    rejected although the bytes reach that far is too short for the body of its kind. -/
theorem of_first_error {rest : List UInt8} {cause : DecodeError} (h : first rest = .error cause) :
    cause = complaint rest ∧ (8 ≤ field rest 4 4 → field rest 4 4 ≤ rest.length →
      (field rest 0 4 = 1 ∨ field rest 0 4 = 2) ∧ field rest 4 4 < 32) := by
  rw [first, headerLength] at h
  rw [complaint]
  split at h
  · next h8 =>
    rw [if_pos h8]
    cases h
    exact ⟨rfl, by omega⟩
  next h8 =>
  rw [if_neg h8]
  dsimp only at h
  split at h
  · next hl =>
    rw [if_pos hl]
    cases h
    exact ⟨rfl, by omega⟩
  next hl =>
  rw [if_neg hl]
  split at h
  · next hle =>
    rw [if_pos hle]
    cases h
    exact ⟨rfl, by omega⟩
  next hle =>
  rw [if_neg hle]
  -- the bytes of the record are there, so it is the body that is missing
  have hlen : (rest.take (field rest 4 4)).length = field rest 4 4 := by
    rw [List.length_take, Nat.min_eq_left (by omega)]
  have hk := ofNat_eq_iff (field_lt rest 0)
  rw [classify, hlen, flipLength] at h
  split at h
  · next hbody =>
    split at h
    · next hshort =>
      cases h
      exact ⟨rfl, fun _ _ => ⟨hbody.imp (hk 1).1 (hk 2).1, hshort⟩⟩
    · split at h <;> cases h
  · split at h <;> cases h

theorem decode_concat_append (rs : List Record) (rest : List UInt8) :
    decode (Record.concat rs ++ rest) = (rs.map fun r => .ok r.event) ++ decode rest := by
  induction rs with
  | nil => rfl
  | cons r rs ih =>
    rw [Record.concat_cons, List.append_assoc, decode_append, ih, List.map_cons, List.cons_append]

/-- A record takes up at least the eight bytes of its header. -/
theorem Record.length_concat (rs : List Record) : 8 * rs.length ≤ (concat rs).length := by
  induction rs with
  | nil => exact Nat.le_refl 0
  | cons r rs ih =>
    have hle := r.header_le
    rw [concat_cons, List.length_append, List.length_cons]
    omega

/-- Any buffer is cut into records and the bytes behind the last of them, and is decoded to the
    events of the records and then, unless nothing is left, to the one complaint about those bytes.
    A length that is neither below a header nor beyond the buffer is only rejected when kind 1 or 2
    has no room for its body. Nothing is left exactly when the buffer is a concatenation of records.
    There is at most one item to every eight bytes begun. Called again and again, the reader answers
    with these items and then with nothing for ever; it uses bytes up whenever it answers, and no
    call accesses the buffer out of bounds. -/
theorem decode_malformed (bytes : List UInt8) :
    ∃ (rs : List Record) (rest : List UInt8), Record.concat rs ++ rest = bytes ∧
      decode bytes = (rs.map fun r => .ok r.event) ++
        (if rest = [] then [] else [.error (complaint rest)]) ∧
      (rest ≠ [] → 8 ≤ field rest 4 4 → field rest 4 4 ≤ rest.length →
        (field rest 0 4 = 1 ∨ field rest 0 4 = 2) ∧ field rest 4 4 < 32) ∧
      (rest = [] ↔ ∃ all : List Record, Record.concat all = bytes) ∧
      (decode bytes).length ≤ (bytes.length + 7) / 8 ∧
      ∀ n, (Reader.next (Reader.left bytes n)).1 = (decode bytes)[n]? ∧
        (n < (decode bytes).length →
          (Reader.left bytes (n + 1)).length < (Reader.left bytes n).length) ∧
        Reader.next? (Reader.left bytes n) = some (Reader.next (Reader.left bytes n)) := by
  obtain ⟨rs, rest, hcut, hrest⟩ := exists_cut bytes
  have hdecode : decode bytes = (rs.map fun r => .ok r.event) ++
      (if rest = [] then [] else [.error (complaint rest)]) := by
    rw [← hcut, decode_concat_append]
    cases rest with
    | nil => rw [if_pos rfl, decode_nil]
    | cons b bs =>
      obtain ⟨cause, hf⟩ := hrest (List.cons_ne_nil b bs)
      rw [if_neg (List.cons_ne_nil b bs), decode_of_first_error hf, (of_first_error hf).1]
  refine ⟨rs, rest, hcut, hdecode, ?_, ⟨?_, ?_⟩, ?_, fun n =>
    ⟨Reader.next_left bytes n, Reader.length_left_lt, Reader.next?_eq _⟩⟩
  · intro hne
    obtain ⟨cause, hf⟩ := hrest hne
    exact (of_first_error hf).2
  · rintro rfl
    exact ⟨rs, (List.append_nil _).symm.trans hcut⟩
  · -- a concatenation of records is decoded without a complaint
    rintro ⟨all, rfl⟩
    by_contra hne
    rw [decode_concat, if_neg hne] at hdecode
    have hmem : Except.error (complaint rest) ∈ all.map fun r : Record => Except.ok r.event := by
      rw [hdecode]
      exact List.mem_append_right _ List.mem_cons_self
    obtain ⟨r, -, hr⟩ := List.mem_map.1 hmem
    cases hr
  · have hlen := congrArg List.length hcut
    have hrs := Record.length_concat rs
    rw [List.length_append] at hlen
    rw [hdecode, List.length_append, List.length_map]
    split
    · rw [List.length_nil]
      omega
    · next hne =>
      have hpos := List.length_pos_iff.2 hne
      rw [List.length_singleton]
      omega

end VideoWall.Drm
