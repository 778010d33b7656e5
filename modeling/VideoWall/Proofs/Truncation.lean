import VideoWall.Proofs.Forwarding
import VideoWall.Proofs.Malformed

/-! Buffers that are cut short.

    What stands in front of a cut is decoded as it would be without the cut, but for a record that
    the cut goes through: it is reported as truncated. A loop has room for so many bytes of a read
    and cuts off the rest, so the calls that it makes are the first of those which the whole read
    asks for. `decode_take` says both. -/

namespace VideoWall.Drm

/-- A length that is rejected is rejected whatever comes behind: the header and the bytes of the
    record are there already. -/
theorem first_append_of_badLength {rest : List UInt8} {kind : UInt32} {length : Nat}
    (h : first rest = .error (.badLength kind length)) (more : List UInt8) :
    first (rest ++ more) = .error (.badLength kind length) := by
  rw [first, headerLength] at h ⊢
  split at h
  · cases h
  next h8 =>
  have hk : field (rest ++ more) 0 4 = field rest 0 4 := field_append (by omega) more
  have hl : field (rest ++ more) 4 4 = field rest 4 4 := field_append (by omega) more
  have hlen : (rest ++ more).length = rest.length + more.length := List.length_append
  rw [if_neg (by omega)]
  dsimp only at h ⊢
  rw [hk, hl]
  split at h
  · next hlow =>
    rw [if_pos hlow]
    exact h
  · next hlow =>
    rw [if_neg hlow]
    split at h
    · cases h
    · next hle =>
      rw [if_neg (by omega), List.take_append_of_le_length (by omega)]
      exact h

/-- Such a length is the only item of its buffer, however much comes behind. -/
theorem decode_append_of_badLength {rest : List UInt8} {kind : UInt32} {length : Nat}
    (h : first rest = .error (.badLength kind length)) (more : List UInt8) :
    decode (rest ++ more) = [.error (.badLength kind length)] := by
  cases rest with
  | nil => cases h
  | cons b bs => exact decode_of_first_error (first_append_of_badLength h more)

/-- Bytes that no record begins with: there are none, or they decode to one error. -/
def Recordless (rest : List UInt8) : Prop :=
  rest = [] ∨ ∃ cause, first rest = .error cause ∧ decode rest = [.error cause]

/-- Whatever is only looked for in events is not found in such bytes. -/
theorem Recordless.filterMap_eq_nil {rest : List UInt8} (h : Recordless rest) {α : Type}
    {f : Except DecodeError Event → Option α} (hf : ∀ cause, f (.error cause) = none) :
    (decode rest).filterMap f = [] := by
  obtain rfl | ⟨cause, -, hd⟩ := h
  · rw [decode_nil, List.filterMap_nil]
  · rw [hd, List.filterMap_cons_none (hf cause), List.filterMap_nil]

/-- The items of the front of a buffer and those of the whole begin with the same events, and what
    the front has behind them is recordless. -/
theorem exists_cut_take (bytes : List UInt8) (n : Nat) : ∃ (es : List Event) (rest : List UInt8),
    decode (bytes.take n) = es.map .ok ++ decode rest ∧
    decode bytes = es.map .ok ++ decode (rest ++ bytes.drop n) ∧ Recordless rest := by
  obtain ⟨rs, rest, hcut, hrest⟩ := exists_cut (bytes.take n)
  have hdecode : ∀ more, decode (Record.concat rs ++ more) =
      (rs.map (·.event)).map .ok ++ decode more := by
    intro more
    rw [decode_concat_append, List.map_map]
    rfl
  refine ⟨rs.map (·.event), rest, ?_, ?_, ?_⟩
  · rw [← hcut, hdecode]
  · rw [← hdecode, ← List.append_assoc, hcut, List.take_append_drop]
  · cases rest with
    | nil => exact .inl rfl
    | cons b bs =>
      obtain ⟨cause, hf⟩ := hrest (List.cons_ne_nil b bs)
      exact .inr ⟨cause, hf, decode_of_first_error hf⟩

/-- Whatever is only looked for in events is found in the front of a buffer first. -/
theorem filterMap_decode_take_isPrefix (bytes : List UInt8) (n : Nat) {α : Type}
    {f : Except DecodeError Event → Option α} (hf : ∀ cause, f (.error cause) = none) :
    (decode (bytes.take n)).filterMap f <+: (decode bytes).filterMap f := by
  obtain ⟨es, rest, hcut, hwhole, hrest⟩ := exists_cut_take bytes n
  rw [hcut, hwhole, List.filterMap_append, List.filterMap_append, hrest.filterMap_eq_nil hf,
    List.append_nil]
  exact List.prefix_append ..

/-- The events among the items of a buffer. -/
def events (bytes : List UInt8) : List Event := (decode bytes).filterMap Except.toOption

end VideoWall.Drm

namespace VideoWall.Vblank

/-- What there is to do about the whole of a reading. -/
def Reading.wholeItems : Reading → List Item
  | .bytes bs => (Drm.decode bs).filterMap Item.ofDecoded
  | .failure cause => (Reading.failure cause).items

namespace Session

/-- `handle`, with the given items. -/
def handleItems (s : Session) (r : Reading) (xs : List Item) : Session :=
  let s := xs.foldl item (s.emit [.took r])
  let (loop, rs) := s.loop.arm
  (({ s with loop }.emit [.armed (.next s.loop.pipe)]).remarks rs).begin

/-- `turn`, of a loop that has room for whatever is read. -/
def wholeTurn (s : Session) : Session :=
  match s.loop.take? with
  | some (r, loop) => { s with loop }.handleItems r r.wholeItems
  | none => s

theorem handle_eq (s : Session) (r : Reading) : s.handle r = s.handleItems r r.items := rfl

/-- The calls that a session has made. -/
def calls (s : Session) : List Event := s.events.filter Event.isCall

end Session

/-! ### Items and calls -/

/-- What there is to do about a reading begins like what there is to do about the whole of it, and
    goes on with nothing but remarks. -/
theorem Reading.exists_items (r : Reading) : ∃ shared rest more : List Item,
    r.items = shared ++ rest ∧ r.wholeItems = shared ++ more ∧ rest.filterMap Item.flip? = [] := by
  cases r with
  | failure cause =>
    refine ⟨[], _, _, rfl, rfl, ?_⟩
    cases cause <;> rfl
  | bytes bs =>
    obtain ⟨es, rest, hcut, hwhole, hrest⟩ := Drm.exists_cut_take bs bufferLength
    refine ⟨(es.map .ok).filterMap Item.ofDecoded, (Drm.decode rest).filterMap Item.ofDecoded,
      (Drm.decode (rest ++ bs.drop bufferLength)).filterMap Item.ofDecoded, ?_, ?_, ?_⟩
    · rw [items, hcut, List.filterMap_append]
    · rw [wholeItems, hwhole, List.filterMap_append]
    · rw [List.filterMap_filterMap]
      exact hrest.filterMap_eq_nil fun cause => rfl

/-- Without a flip there is no call. -/
theorem Target.calls_of_no_flips {t : Target} {es : List Event}
    (h : es.filterMap Event.flip? = []) : t.calls es = [] := by
  induction es generalizing t with
  | nil => rfl
  | cons e es ih =>
    obtain ⟨he, hes⟩ := List.forall_mem_cons.1 (List.filterMap_eq_nil_iff.1 h)
    rw [calls, he, ih (List.filterMap_eq_nil_iff.2 hes)]
    rfl

namespace Session

variable {s s' : Session} {taken : List Reading} {flips : List Drm.Flip}

/-- A passage only adds calls. -/
theorem Handles.calls_isPrefix (h : s.Handles s' taken flips) : s.calls <+: s'.calls := by
  obtain ⟨-, -, es, hp, -⟩ := h
  rw [calls, calls, hp.events_eq, List.filter_append]
  exact List.prefix_append ..

/-- A passage that comes to no flip makes no call. -/
theorem Handles.calls_eq (h : s.Handles s' taken []) : s'.calls = s.calls := by
  obtain ⟨-, -, es, hp, -, hf⟩ := h
  rw [calls, calls, hp.events_eq, List.filter_append, hp.calls_eq, Target.calls_of_no_flips hf,
    List.append_nil]

/-- All calls about a reading are made by the time that its items are through. -/
theorem calls_handleItems (h : s.loop.interval.Timely) (r : Reading) (xs : List Item) :
    (s.handleItems r xs).calls = (xs.foldl item (s.emit [.took r])).calls := by
  have ht : (xs.foldl item (s.emit [.took r])).loop.interval.Timely :=
    (handles_items (s := s.emit [.took r]) h xs).timely
  rw [handleItems]
  generalize xs.foldl item (s.emit [.took r]) = t at ht ⊢
  have harm : t.Handles ({ t with loop := t.loop.arm.1 }.emit [.armed (.next t.loop.pipe)]) [] [] :=
    .of_asides [.armed (.next t.loop.pipe)] (by simp [Event.isAside]) rfl rfl ht rfl rfl
  have hrem := harm.trans (handles_remarks harm.timely t.loop.arm.2)
  exact (hrem.trans (handles_begin hrem.timely)).calls_eq

/-- At a turn, a loop makes the first of the calls that the whole of the reading asks for. -/
theorem calls_turn_isPrefix (h : s.loop.interval.Timely) : s.turn.calls <+: s.wholeTurn.calls := by
  rw [turn, wholeTurn]
  cases htake : s.loop.take? with
  | none => exact List.prefix_rfl
  | some p =>
    obtain ⟨r, l⟩ := p
    have hl : l.interval.Timely := by
      rw [(Loop.of_take?_eq_some htake).2.2]
      exact h
    obtain ⟨shared, rest, more, hitems, hwhole, hrest⟩ := r.exists_items
    set s' : Session := { s with loop := l }
    have hs' : s'.loop.interval.Timely := hl
    have ht : (shared.foldl item (s'.emit [.took r])).loop.interval.Timely :=
      (handles_items (s := s'.emit [.took r]) hs' shared).timely
    show (s'.handle r).calls <+: (s'.handleItems r r.wholeItems).calls
    rw [handle_eq, calls_handleItems hs', calls_handleItems hs', hitems, hwhole,
      List.foldl_append, List.foldl_append]
    have hremarks := handles_items ht rest
    rw [hrest] at hremarks
    rw [hremarks.calls_eq]
    exact (handles_items ht more).calls_isPrefix

end Session

end VideoWall.Vblank

namespace VideoWall.Drm

open Vblank

/-- A buffer that is cut short gives the first events of the whole buffer. If no item of it is an
    error, the whole buffer gives what its two parts give, one after the other; if one is a length
    that is rejected, the whole buffer gives nothing more. So an error that the whole buffer does
    not have is a truncation. The completed flips that a loop finds in a read of any length are the
    first of those in the whole read, and so are the calls that it makes at a turn, whatever its
    callbacks do to it. -/
theorem decode_take (bytes : List UInt8) (n : Nat) :
    events (bytes.take n) <+: events bytes ∧
    ((∀ cause, .error cause ∉ decode (bytes.take n)) →
      decode bytes = decode (bytes.take n) ++ decode (bytes.drop n)) ∧
    (∀ kind length, .error (.badLength kind length) ∈ decode (bytes.take n) →
      decode bytes = decode (bytes.take n)) ∧
    (∀ cause, .error cause ∈ decode (bytes.take n) → .error cause ∉ decode bytes →
      ∃ needed available, cause = .truncated needed available) ∧
    (Reading.bytes bytes).flips <+: (decode bytes).filterMap flipOf? ∧
    ∀ (pipe : Nat) (inert : Bool) (moves : List Move),
      let s := moves.foldl Session.move (.create pipe inert)
      s.turn.calls <+: s.wholeTurn.calls := by
  obtain ⟨es, rest, hcut, hwhole, hrest⟩ := exists_cut_take bytes n
  have hbad : ∀ kind length, .error (.badLength kind length) ∈ decode (bytes.take n) →
      decode bytes = decode (bytes.take n) := by
    intro kind length hmem
    obtain rfl | ⟨cause, hf, hd⟩ := hrest
    · rw [hcut, decode_nil] at hmem
      simp at hmem
    · rw [hcut, hd] at hmem
      obtain rfl : DecodeError.badLength kind length = cause := by simpa using hmem
      rw [hcut, hwhole, hd, decode_append_of_badLength hf]
  refine ⟨filterMap_decode_take_isPrefix bytes n fun cause => rfl, ?_, hbad, ?_,
    filterMap_decode_take_isPrefix bytes bufferLength fun cause => rfl, ?_⟩
  · intro hok
    obtain rfl | ⟨cause, -, hd⟩ := hrest
    · rw [hcut, hwhole, decode_nil, List.append_nil, List.nil_append]
    · refine absurd ?_ (hok cause)
      rw [hcut, hd]
      exact List.mem_append_right _ List.mem_cons_self
  · intro cause hmem hnot
    cases cause with
    | truncated needed available => exact ⟨needed, available, rfl⟩
    | badLength kind length => exact absurd (hbad kind length hmem ▸ hmem) hnot
  · intro pipe inert moves
    have htimely : (Session.create pipe inert).loop.interval.Timely := fun t ht => by cases ht
    obtain ⟨⟨es, hp, -⟩, -⟩ := Session.serves_foldl_move htimely moves
    exact Session.calls_turn_isPrefix hp.timely

end VideoWall.Drm
