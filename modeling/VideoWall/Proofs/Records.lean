import Mathlib.Algebra.Ring.Nat
import Mathlib.Tactic.ByContra
import Mathlib.Tactic.Set
import VideoWall.Drm.Decode

/-! What a display driver writes, and that reading it back accepts exactly that.

    A record is a byte string that says its own length. `decode_eq_ok_iff` shows that a buffer
    decodes without an error exactly when it is a concatenation of records, that there is only one
    way to cut it, and that flips written byte by byte, among records of any length, are read back
    as they were. -/

namespace VideoWall.Drm

/-- The `width` bytes of a number, least significant first. -/
def littleEndian : Nat → Nat → List UInt8
  | 0, _ => []
  | width + 1, n => UInt8.ofNat n :: littleEndian width (n / 256)

/-- A byte string that begins with its kind and its own length; kinds 1 and 2 have a body. -/
structure Record where
  bytes : List UInt8
  header_le : 8 ≤ bytes.length
  length_lt : bytes.length < 2 ^ 32
  length_eq : field bytes 4 4 = bytes.length
  body_le : field bytes 0 4 = 1 ∨ field bytes 0 4 = 2 → 32 ≤ bytes.length

namespace Record

/-- The numbers in the body of a record. -/
def body (r : Record) : Flip where
  userData := .ofNat (field r.bytes 8 8)
  seconds := .ofNat (field r.bytes 16 4)
  micros := .ofNat (field r.bytes 20 4)
  sequence := .ofNat (field r.bytes 24 4)
  crtc := .ofNat (field r.bytes 28 4)

/-- What a record tells; kinds beyond the third are not looked into. -/
def event (r : Record) : Event :=
  match field r.bytes 0 4 with
  | 1 => .vblank r.body
  | 2 => .flipComplete r.body
  | 3 => .crtcSequence
  | kind => .other (.ofNat kind)

end Record

/-- A flip as a record of 32 bytes. -/
def Flip.encode (f : Flip) (kind : Nat) : List UInt8 :=
  littleEndian 4 kind ++ littleEndian 4 32 ++ littleEndian 8 f.userData.toNat ++
    littleEndian 4 f.seconds.toNat ++ littleEndian 4 f.micros.toNat ++
    littleEndian 4 f.sequence.toNat ++ littleEndian 4 f.crtc.toNat

/-- Something to write: a flip of kind 1 or 2, or any record as it is. -/
inductive Draft where | vblank (f : Flip) | flipComplete (f : Flip) | record (r : Record)

namespace Draft

def bytes : Draft → List UInt8
  | .vblank f => f.encode 1
  | .flipComplete f => f.encode 2
  | .record r => r.bytes

def event : Draft → Event
  | .vblank f => .vblank f
  | .flipComplete f => .flipComplete f
  | .record r => r.event

end Draft

/-! ### Numbers and their bytes -/

theorem number_littleEndian (width n : Nat) :
    number (littleEndian width n) = n % 256 ^ width := by
  induction width generalizing n with
  | zero => rw [Nat.pow_zero, Nat.mod_one]; rfl
  | succ width ih =>
    rw [littleEndian, number, ih, Nat.pow_succ', Nat.mod_mul, UInt8.toNat_ofNat']

theorem number_lt (bytes : List UInt8) : number bytes < 256 ^ bytes.length := by
  induction bytes with
  | nil => exact Nat.one_pos
  | cons b rest ih =>
    have hb : b.toNat < 256 := b.toNat_lt
    rw [number, List.length_cons, Nat.pow_succ]
    omega

theorem field_lt (bytes : List UInt8) (offset : Nat) : field bytes offset 4 < 2 ^ 32 := by
  have hl : ((bytes.drop offset).take 4).length ≤ 4 := by
    rw [List.length_take]; exact Nat.min_le_left ..
  exact Nat.lt_of_lt_of_le (number_lt _) (Nat.pow_le_pow_right (by omega) hl)

/-- A field that lies in the front of a buffer is a field of that front. -/
theorem field_append {front : List UInt8} {offset width : Nat}
    (h : offset + width ≤ front.length) (rest : List UInt8) :
    field (front ++ rest) offset width = field front offset width := by
  rw [field, List.drop_append_of_le_length (by omega), List.take_append_of_le_length]
  · rfl
  · rw [List.length_drop]; omega

/-- A number written out and read back at its place. -/
theorem field_of_extract {bytes : List UInt8} {offset width n : Nat}
    (h : (bytes.drop offset).take width = littleEndian width n) (hn : n < 256 ^ width) :
    field bytes offset width = n := by
  rw [field, h, number_littleEndian, Nat.mod_eq_of_lt hn]

/-! ### Records, one at a time -/

/-- The word of a kind is the kind itself. -/
theorem ofNat_eq_iff {k : Nat} (hk : k < 2 ^ 32) (c : UInt32) :
    UInt32.ofNat k = c ↔ k = c.toNat := by
  rw [← UInt32.toNat_inj, UInt32.toNat_ofNat', Nat.mod_eq_of_lt hk]

/-- A record is classified by what it tells. -/
theorem classify_record (r : Record) :
    classify (.ofNat (field r.bytes 0 4)) r.bytes = .ok r.event := by
  have hk := ofNat_eq_iff (field_lt r.bytes 0)
  have hbody : Flip.read r.bytes = r.body := rfl
  rw [classify, Record.event, hbody]
  split
  · next h =>
    have h12 : field r.bytes 0 4 = 1 ∨ field r.bytes 0 4 = 2 := h.imp (hk 1).1 (hk 2).1
    have h32 : ¬ r.bytes.length < flipLength := Nat.not_lt.2 (r.body_le h12)
    rw [if_neg h32]
    rcases h12 with h1 | h2
    · simp [h1]
    · simp [h2]
  · next h =>
    obtain ⟨h1, h2⟩ := not_or.1 h
    rw [hk] at h1 h2
    split
    · next h3 =>
      rw [(hk 3).1 h3]; rfl
    · next h3 =>
      rw [hk] at h3
      split <;> first | contradiction | rfl

/-- The first record of a buffer that begins with a record. -/
theorem first_append (r : Record) (rest : List UInt8) :
    first (r.bytes ++ rest) = .ok (r.event, r.bytes.length) := by
  have hle := r.header_le
  have hk : field (r.bytes ++ rest) 0 4 = field r.bytes 0 4 := field_append (by omega) rest
  have hl : field (r.bytes ++ rest) 4 4 = r.bytes.length :=
    (field_append (by omega) rest).trans r.length_eq
  have hlen : (r.bytes ++ rest).length = r.bytes.length + rest.length := List.length_append
  rw [first, if_neg (by rw [hlen, headerLength]; omega)]
  simp only [hk, hl, List.take_left, classify_record]
  rw [if_neg (by rw [headerLength]; omega), if_neg (by rw [hlen]; omega)]
  rfl

/-- A byte string of kind 1 or 2 that can be classified has a body. -/
theorem body_le_of_classify {bytes : List UInt8} {e : Event}
    (h : classify (.ofNat (field bytes 0 4)) bytes = .ok e)
    (hk : field bytes 0 4 = 1 ∨ field bytes 0 4 = 2) : 32 ≤ bytes.length := by
  have hc : UInt32.ofNat (field bytes 0 4) = 1 ∨ UInt32.ofNat (field bytes 0 4) = 2 := by
    rcases hk with h1 | h2
    · rw [h1]; exact .inl rfl
    · rw [h2]; exact .inr rfl
  rw [classify, if_pos hc] at h
  by_contra hlt
  have hlen : bytes.length < flipLength := Nat.lt_of_not_le hlt
  rw [if_pos hlen] at h
  cases h

/-- The first record of a buffer, if it can be read, is cut off its front. -/
theorem exists_record_of_first {bytes : List UInt8} {e : Event} {n : Nat}
    (h : first bytes = .ok (e, n)) :
    ∃ r : Record, r.event = e ∧ r.bytes ++ bytes.drop n = bytes := by
  rw [first] at h
  split at h
  · cases h
  dsimp only at h
  split at h
  · cases h
  split at h
  · cases h
  next h8 hl hle =>
    rw [headerLength] at h8 hl
    -- the bytes of the record are those up to the length that its header gives
    set front := bytes.take (field bytes 4 4) with hfront
    have hlen : front.length = field bytes 4 4 := by
      rw [hfront, List.length_take, Nat.min_eq_left (by omega)]
    have hsplit : front ++ bytes.drop (field bytes 4 4) = bytes := List.take_append_drop ..
    have hfield : ∀ offset, offset + 4 ≤ 8 → field front offset 4 = field bytes offset 4 := by
      intro offset ho
      conv_rhs => rw [← hsplit]
      exact (field_append (by omega) _).symm
    rw [← hfield 0 (by omega)] at h
    cases hc : classify (.ofNat (field front 0 4)) front with
    | error cause => rw [hc] at h; cases h
    | ok e' =>
      let r : Record := {
        bytes := front
        header_le := by omega
        length_lt := by rw [hlen]; exact field_lt bytes 4
        length_eq := by rw [hfield 4 (by omega), hlen]
        body_le := body_le_of_classify hc }
      have he : e' = r.event := by
        have := (classify_record r).symm.trans hc
        injection this with this
        exact this.symm
      rw [hc] at h
      simp only [Except.map, Except.ok.injEq, Prod.mk.injEq] at h
      obtain ⟨rfl, rfl⟩ := h
      exact ⟨r, he.symm, hsplit⟩

/-! ### Buffers -/

theorem decode_nil : decode [] = [] := by rw [decode, items]; rfl

/-- Decoding goes step by step. -/
theorem decode_of_step {bytes rest : List UInt8} {item : Except DecodeError Event}
    (h : step bytes = some (item, rest)) : decode bytes = item :: decode rest := by
  rw [decode, items]
  split
  · next hn => rw [hn] at h; cases h
  · next hs =>
    rw [hs] at h
    cases h
    rfl

theorem Record.append_ne_nil (r : Record) (rest : List UInt8) : r.bytes ++ rest ≠ [] := by
  intro h
  have hle := r.header_le
  rw [(List.append_eq_nil_iff.1 h).1, List.length_nil] at hle
  omega

/-- A buffer whose front is a record gives its event, and then those of the rest. -/
theorem decode_append (r : Record) (rest : List UInt8) :
    decode (r.bytes ++ rest) = .ok r.event :: decode rest := by
  refine decode_of_step ?_
  have hf := first_append r rest
  have hd : (r.bytes ++ rest).drop r.bytes.length = rest := List.drop_left
  cases hb : r.bytes ++ rest with
  | nil => exact absurd hb (r.append_ne_nil rest)
  | cons b bs =>
    rw [hb] at hf hd
    simp only [step, hf, hd]

/-- A buffer whose first record cannot be read gives the reason and nothing else. -/
theorem decode_of_first_error {b : UInt8} {bs : List UInt8} {cause : DecodeError}
    (h : first (b :: bs) = .error cause) : decode (b :: bs) = [.error cause] := by
  have hs : step (b :: bs) = some (.error cause, []) := by simp only [step, h]
  rw [decode_of_step hs, decode_nil]

/-- A buffer that gives an event first has a record at its front. -/
theorem exists_record_of_decode {bytes : List UInt8} {e : Event}
    {items : List (Except DecodeError Event)} (h : decode bytes = .ok e :: items) :
    ∃ (r : Record) (rest : List UInt8),
      r.event = e ∧ r.bytes ++ rest = bytes ∧ decode rest = items := by
  cases bytes with
  | nil => rw [decode_nil] at h; cases h
  | cons b bs =>
    cases hf : first (b :: bs) with
    | error cause =>
      rw [decode_of_first_error hf] at h
      cases h
    | ok p =>
      obtain ⟨r, hr, hsplit⟩ := exists_record_of_first (e := p.1) (n := p.2) hf
      refine ⟨r, (b :: bs).drop p.2, ?_, hsplit, ?_⟩
      all_goals
        rw [← hsplit, decode_append, List.cons.injEq, Except.ok.injEq] at h
      · exact h.1
      · exact h.2

theorem decode_eq_nil {bytes : List UInt8} (h : decode bytes = []) : bytes = [] := by
  cases bytes with
  | nil => rfl
  | cons b bs =>
    cases hf : first (b :: bs) with
    | error cause =>
      rw [decode_of_first_error hf] at h
      cases h
    | ok p =>
      obtain ⟨r, -, hsplit⟩ := exists_record_of_first (e := p.1) (n := p.2) hf
      rw [← hsplit, decode_append] at h
      cases h

/-- Records one after another, as they stand in a buffer. -/
def Record.concat (rs : List Record) : List UInt8 := rs.flatMap (·.bytes)

theorem Record.concat_cons (r : Record) (rs : List Record) :
    concat (r :: rs) = r.bytes ++ concat rs := List.flatMap_cons

theorem decode_concat (rs : List Record) :
    decode (Record.concat rs) = rs.map fun r => .ok r.event := by
  induction rs with
  | nil => exact decode_nil
  | cons r rs ih => rw [Record.concat_cons, decode_append, ih, List.map_cons]

/-- A buffer that decodes without an error is cut into records. -/
theorem exists_records_of_decode {bytes : List UInt8} {es : List Event}
    (h : decode bytes = es.map .ok) :
    ∃ rs : List Record, Record.concat rs = bytes ∧ rs.map (·.event) = es := by
  induction es generalizing bytes with
  | nil => exact ⟨[], (decode_eq_nil h).symm, rfl⟩
  | cons e es ih =>
    obtain ⟨r, rest, rfl, rfl, hrest⟩ := exists_record_of_decode h
    obtain ⟨rs, rfl, rfl⟩ := ih hrest
    exact ⟨r :: rs, Record.concat_cons r rs, rfl⟩

/-- The record at the front of a buffer is the only one there: its length is read off its header. -/
theorem Record.append_inj {r s : Record} {x y : List UInt8}
    (h : r.bytes ++ x = s.bytes ++ y) : r = s ∧ x = y := by
  have hr := r.header_le
  have hs := s.header_le
  have hlen : r.bytes.length = s.bytes.length := by
    rw [← r.length_eq, ← s.length_eq, ← field_append (by omega) x, h, field_append (by omega)]
  obtain ⟨hb, hxy⟩ := List.append_inj h hlen
  cases r
  cases s
  cases hb
  exact ⟨rfl, hxy⟩

theorem Record.concat_injective : Function.Injective concat := by
  intro rs
  induction rs with
  | nil =>
    intro ss h
    cases ss with
    | nil => rfl
    | cons s ss => exact absurd h.symm (s.append_ne_nil _)
  | cons r rs ih =>
    intro ss h
    cases ss with
    | nil => exact absurd h (r.append_ne_nil _)
    | cons s ss =>
      rw [concat_cons, concat_cons] at h
      obtain ⟨rfl, hx⟩ := append_inj h
      rw [ih hx]

/-! ### Flips written out -/

theorem Flip.length_encode (f : Flip) (kind : Nat) : (f.encode kind).length = 32 := rfl

/-- The record of kind 1 or 2 that a flip is written as. -/
def Flip.record (f : Flip) (kind : Nat) : Record where
  bytes := f.encode kind
  header_le := by rw [f.length_encode]; omega
  length_lt := by rw [f.length_encode]; omega
  length_eq := field_of_extract (n := 32) rfl (by omega)
  body_le := fun _ => Nat.le_of_eq (f.length_encode kind).symm

/-- Every field of a flip is found where it was written. -/
theorem Flip.body_record (f : Flip) (kind : Nat) : (f.record kind).body = f := by
  have h8 : field (f.encode kind) 8 8 = f.userData.toNat := field_of_extract rfl f.userData.toNat_lt
  have h16 : field (f.encode kind) 16 4 = f.seconds.toNat := field_of_extract rfl f.seconds.toNat_lt
  have h20 : field (f.encode kind) 20 4 = f.micros.toNat := field_of_extract rfl f.micros.toNat_lt
  have h24 : field (f.encode kind) 24 4 = f.sequence.toNat :=
    field_of_extract rfl f.sequence.toNat_lt
  have h28 : field (f.encode kind) 28 4 = f.crtc.toNat := field_of_extract rfl f.crtc.toNat_lt
  rw [Record.body]
  simp only [Flip.record, h8, h16, h20, h24, h28, UInt64.ofNat_toNat, UInt32.ofNat_toNat]

theorem Flip.kind_record (f : Flip) {kind : Nat} (hk : kind < 2 ^ 32) :
    field (f.record kind).bytes 0 4 = kind := field_of_extract rfl hk

namespace Draft

/-- The record that a draft comes to. -/
def toRecord : Draft → Record
  | .vblank f => f.record 1
  | .flipComplete f => f.record 2
  | .record r => r

theorem bytes_toRecord (d : Draft) : d.toRecord.bytes = d.bytes := by cases d <;> rfl

theorem event_toRecord (d : Draft) : d.toRecord.event = d.event := by
  cases d with
  | vblank f => rw [toRecord, Record.event, f.kind_record (by omega), f.body_record]; rfl
  | flipComplete f => rw [toRecord, Record.event, f.kind_record (by omega), f.body_record]; rfl
  | record r => rfl

end Draft

/-- What is written is read back, in order. -/
theorem decode_drafts (ds : List Draft) :
    decode (ds.flatMap Draft.bytes) = ds.map fun d => .ok d.event := by
  have hb : ds.flatMap Draft.bytes = Record.concat (ds.map Draft.toRecord) := by
    rw [Record.concat, List.flatMap_map]
    exact congrArg ds.flatMap (funext fun d => d.bytes_toRecord.symm)
  rw [hb, decode_concat, List.map_map]
  exact List.map_congr_left fun d _ => congrArg Except.ok d.event_toRecord

/-- A buffer decodes to some events without an error exactly when it is a concatenation of records
    that tell them, and it is one in a single way. Flips of any value, written as 32 bytes of kind 1
    or 2 among any other records, are read back in order. -/
theorem decode_eq_ok_iff (bytes : List UInt8) (es : List Event) :
    (decode bytes = es.map .ok ↔
      ∃ rs : List Record, Record.concat rs = bytes ∧ rs.map (·.event) = es) ∧
    Function.Injective Record.concat ∧
    (∀ ds : List Draft, decode (ds.flatMap Draft.bytes) = ds.map fun d => .ok d.event) ∧
    ∀ (f : Flip) (kind : Nat), (f.encode kind).length = 32 := by
  refine ⟨⟨exists_records_of_decode, ?_⟩, Record.concat_injective, decode_drafts,
    Flip.length_encode⟩
  rintro ⟨rs, rfl, rfl⟩
  rw [decode_concat, List.map_map]
  rfl

end VideoWall.Drm
