import VideoWall.Proofs.Flips
import VideoWall.Proofs.Orders

/-! What a loop forwards.

    A loop is started and stopped, readings arrive whether it runs or not, and its callback and hook
    may change the loop that they are called from. The events of a session tell all that happens,
    in order, so what is in force at any moment can be read off the events before it: `Target` does
    so, and knows nothing of the loop. `Session.forwards` says that every reading is handled once,
    in order and by a running loop, that a running loop leaves none unhandled, and that the calls
    are those which the completed flips ask for, each by what is in force at its turn.

    Everything that happens within an operation is a chain of passages, `Session.Passes`: it adds
    events, and both the loop and its calls follow them. Who ordered what is in force is another
    matter, and `Session.logs_log` answers it. -/

namespace VideoWall.Vblank

/-! ### Events read back -/

namespace Event

/-- The reading that an event takes off the device. -/
def taken? : Event → Option Reading
  | .took r => some r
  | _ => none

/-- The completed flip that an event comes to. -/
def flip? : Event → Option Drm.Flip
  | .flipped f => some f
  | _ => none

/-- Whether an event is a call of the callback. -/
def isCall : Event → Bool
  | .vsync .. => true
  | _ => false

/-- Whether an event is about neither a reading nor a flip nor a call. -/
def isAside : Event → Bool
  | .took _ | .flipped _ | .vsync .. => false
  | _ => true

end Event

namespace Target

/-- The call that a flip makes at its turn: forwarding has to be enabled and a callback
    registered. -/
def call? (t : Target) (f : Drm.Flip) : Option Event :=
  if t.enabled then t.callback.map fun c => .vsync c t.display f.time else none

/-- The calls that some events ask for, flip by flip. -/
def calls : Target → List Event → List Event
  | _, [] => []
  | t, e :: es => (e.flip?.bind t.call?).toList ++ calls (t.after e) es

/-- Readings are only taken while the loop runs. -/
def Takes : Target → List Event → Prop
  | _, [] => True
  | t, e :: es => (e.taken?.isSome → t.running = true) ∧ Takes (t.after e) es

variable (t : Target) (es fs : List Event)

theorem calls_append : t.calls (es ++ fs) = t.calls es ++ (t.afterAll es).calls fs := by
  induction es generalizing t with
  | nil => rfl
  | cons e es ih => simp [calls, ih, afterAll]

theorem takes_append : t.Takes (es ++ fs) ↔ t.Takes es ∧ (t.afterAll es).Takes fs := by
  induction es generalizing t with
  | nil => simp [Takes, afterAll]
  | cons e es ih => simp [Takes, ih, afterAll, and_assoc]

/-- Asides ask for no call, and take no reading. -/
theorem calls_of_asides {t : Target} {es : List Event} (h : ∀ e ∈ es, e.isAside = true) :
    t.calls es = [] ∧ t.Takes es := by
  induction es generalizing t with
  | nil => exact ⟨rfl, trivial⟩
  | cons e es ih =>
    obtain ⟨hc, ht⟩ := ih (t := t.after e) fun x hx => h x (List.mem_cons_of_mem e hx)
    have he := h e List.mem_cons_self
    rw [calls, hc, Takes]
    cases e <;> simp_all [Event.flip?, Event.taken?, Event.isAside]

/-- At the moment at which a reading is taken, the loop runs. -/
theorem Takes.running {t : Target} {es before rest : List Event} (h : t.Takes es) {r : Reading}
    (hes : es = before ++ .took r :: rest) : (t.afterAll before).running = true := by
  rw [hes, takes_append] at h
  exact h.2.1 rfl

end Target

/-! ### Passages -/

namespace Session

/-- A session comes from `s` to `s'` with the events `es`: the loop's target follows the events, its
    calls are those that they ask for, and readings are taken while it runs. -/
structure Passes (s s' : Session) (es : List Event) : Prop where
  events_eq : s'.events = s.events ++ es
  target_eq : s'.loop.target = s.loop.target.afterAll es
  calls_eq : es.filter Event.isCall = s.loop.target.calls es
  takes : s.loop.target.Takes es
  timely : s'.loop.interval.Timely

/-- A passage that takes the readings `taken`, comes to the flips `flips`, and leaves alone whether
    the loop runs and what waits on its device. -/
def Handles (s s' : Session) (taken : List Reading) (flips : List Drm.Flip) : Prop :=
  s'.loop.running = s.loop.running ∧ s'.loop.device.queued = s.loop.device.queued ∧
    ∃ es, s.Passes s' es ∧ es.filterMap Event.taken? = taken ∧ es.filterMap Event.flip? = flips

variable {s s' s'' : Session}

theorem Passes.trans {es fs : List Event} (h : s.Passes s' es) (h' : s'.Passes s'' fs) :
    s.Passes s'' (es ++ fs) where
  events_eq := by rw [h'.events_eq, h.events_eq, List.append_assoc]
  target_eq := by rw [h'.target_eq, h.target_eq, Target.afterAll_append]
  calls_eq := by rw [List.filter_append, h.calls_eq, h'.calls_eq, h.target_eq, Target.calls_append]
  takes := (Target.takes_append ..).2 ⟨h.takes, h.target_eq ▸ h'.takes⟩
  timely := h'.timely

/-- Nothing happens. -/
theorem Passes.refl (h : s.loop.interval.Timely) : s.Passes s [] where
  events_eq := (List.append_nil _).symm
  target_eq := rfl
  calls_eq := rfl
  takes := trivial
  timely := h

/-- A passage without calls. -/
theorem passes_of_asides (es : List Event) (h : ∀ e ∈ es, e.isAside = true)
    (he : s'.events = s.events ++ es) (ht : s'.loop.target = s.loop.target.afterAll es)
    (hi : s'.loop.interval.Timely) : s.Passes s' es where
  events_eq := he
  target_eq := ht
  calls_eq := by
    rw [(Target.calls_of_asides h).1, List.filter_eq_nil_iff]
    intro e hm
    have := h e hm
    cases e <;> simp_all [Event.isAside, Event.isCall]
  takes := (Target.calls_of_asides h).2
  timely := hi

namespace Handles

variable {taken taken' : List Reading} {flips flips' : List Drm.Flip}

theorem timely (h : s.Handles s' taken flips) : s'.loop.interval.Timely := by
  obtain ⟨-, -, es, hp, -⟩ := h
  exact hp.timely

theorem refl (h : s.loop.interval.Timely) : s.Handles s [] [] :=
  ⟨rfl, rfl, [], .refl h, rfl, rfl⟩

theorem trans (h : s.Handles s' taken flips) (h' : s'.Handles s'' taken' flips') :
    s.Handles s'' (taken ++ taken') (flips ++ flips') := by
  obtain ⟨hr, hq, es, hp, ht, hf⟩ := h
  obtain ⟨hr', hq', es', hp', ht', hf'⟩ := h'
  refine ⟨hr'.trans hr, hq'.trans hq, es ++ es', hp.trans hp', ?_, ?_⟩
  · rw [List.filterMap_append, ht, ht']
  · rw [List.filterMap_append, hf, hf']

/-- The hooks do not matter. -/
theorem of_hooks (hooks : List Hook) (h : { s with hooks }.Handles s' taken flips) :
    s.Handles s' taken flips := by
  obtain ⟨hr, hq, es, hp, ht, hf⟩ := h
  exact ⟨hr, hq, es, ⟨hp.events_eq, hp.target_eq, hp.calls_eq, hp.takes, hp.timely⟩, ht, hf⟩

/-- Some asides, which the loop follows. -/
theorem of_asides (es : List Event) (h : ∀ e ∈ es, e.isAside = true)
    (he : s'.events = s.events ++ es) (ht : s'.loop.target = s.loop.target.afterAll es)
    (hi : s'.loop.interval.Timely) (hr : s'.loop.running = s.loop.running)
    (hq : s'.loop.device.queued = s.loop.device.queued) : s.Handles s' [] [] := by
  refine ⟨hr, hq, es, passes_of_asides es h he ht hi, ?_, ?_⟩
  all_goals
    refine List.filterMap_eq_nil_iff.2 fun e he => ?_
    have := h e he
    cases e <;> simp_all [Event.isAside, Event.taken?, Event.flip?]

end Handles

/-! ### Changes and scripts -/

theorem isAside_of_mem_map_remark {rs : List Remark} {e : Event} (h : e ∈ rs.map Event.remark) :
    e.isAside = true := by
  obtain ⟨r, -, rfl⟩ := List.mem_map.1 h
  rfl

theorem handles_remarks (h : s.loop.interval.Timely) (rs : List Remark) :
    s.Handles (s.remarks rs) [] [] :=
  .of_asides (rs.map .remark) (fun _ he => isAside_of_mem_map_remark he) rfl
    (afterAll_map_remark ..).symm h rfl rfl

theorem handles_apply (h : s.loop.interval.Timely) (c : Change) : s.Handles (s.apply c) [] [] := by
  cases c with
  | register display script limit =>
    exact .of_asides [.registered s.hooks.length display] (by simp [Event.isAside]) rfl rfl
      s.loop.interval.timely_reset rfl rfl
  | control enabled =>
    -- asking for what already holds is an event too, but changes nothing
    have hl : (s.loop.control enabled).1.target = { s.loop.target with enabled } ∧
        (s.loop.control enabled).1.interval.Timely ∧
        (s.loop.control enabled).1.device = s.loop.device := by
      rw [Loop.control]
      split
      · next he => exact ⟨by rw [← he]; rfl, h, rfl⟩
      · exact ⟨rfl, s.loop.interval.timely_reset, rfl⟩
    obtain ⟨ht, hi, hd⟩ := hl
    have hs : s.Handles ({ s with loop := (s.loop.control enabled).1 }.emit [.switched enabled])
        [] [] :=
      .of_asides [.switched enabled] (by simp [Event.isAside]) rfl ht hi
        (congrArg Target.running ht) (congrArg Device.queued hd)
    exact hs.trans (handles_remarks hi _)
  | idle tag script limit =>
    exact .of_asides [] (by simp) (List.append_nil _).symm rfl h rfl rfl

theorem handles_foldl_apply (h : s.loop.interval.Timely) (script : List Change) :
    s.Handles (script.foldl apply s) [] [] := by
  induction script generalizing s with
  | nil => exact .refl h
  | cons c script ih =>
    have hc := handles_apply h c
    exact hc.trans (ih hc.timely)

/-- Whatever a callback or a hook does, it takes no reading and comes to no flip. -/
theorem handles_perform (h : s.loop.interval.Timely) (id : Nat) :
    s.Handles (s.perform id) [] [] := by
  rw [perform]
  split
  · next tag script left _ =>
    exact .of_hooks (s.hooks.set id { tag, script, left })
      (handles_foldl_apply (s := { s with hooks := s.hooks.set id { tag, script, left } }) h script)
  · exact .refl h

theorem handles_begin (h : s.loop.interval.Timely) : s.Handles s.begin [] [] := by
  have hi : s.Handles (s.emit [.iteration]) [] [] :=
    .of_asides [.iteration] (by simp [Event.isAside]) rfl rfl h rfl rfl
  unfold begin
  dsimp only
  split
  · exact hi
  · next id _ =>
    generalize (((s.emit [.iteration]).hooks[id]?.map (·.tag)).getD "") = tag
    have hh : (s.emit [.iteration]).Handles ((s.emit [.iteration]).emit [.idle id tag]) [] [] :=
      .of_asides [.idle id tag] (by simp [Event.isAside]) rfl rfl h rfl rfl
    exact (hi.trans hh).trans (handles_perform hh.timely id)

/-! ### Readings -/

/-- A call as an event. -/
def callEvent (c : Call Nat) : Event := .vsync c.callback c.display c.time

/-- The call that a loop makes is the one that its target asks for. -/
theorem call?_target (l : Loop Nat) (f : Drm.Flip) :
    l.target.call? f = (l.forward? f).map callEvent := by
  rw [Target.call?, Loop.forward?, Loop.target]
  cases l.enabled <;> cases l.callback <;> rfl

/-- A flip, what is remarked about it, and the call that it asks for at its turn. -/
theorem handles_of_flip {f : Drm.Flip} (rs : List Remark)
    (hl : s'.loop = { s.loop with interval := ⟨some f.time⟩ })
    (he : s'.events = s.events ++
      .flipped f :: (rs.map .remark ++ ((s.loop.forward? f).map callEvent).toList)) :
    s.Handles s' [] [f] := by
  have hcall := call?_target s.loop f
  generalize s.loop.forward? f = call at he hcall
  have haside : ∀ e ∈ rs.map Event.remark, e.isAside = true := fun e => isAside_of_mem_map_remark
  obtain ⟨hcalls, htakes⟩ := Target.calls_of_asides (t := s.loop.target) haside
  have hafter := afterAll_map_remark s.loop.target rs
  have hnone : (rs.map Event.remark).filter Event.isCall = [] ∧
      (rs.map Event.remark).filterMap Event.taken? = [] ∧
      (rs.map Event.remark).filterMap Event.flip? = [] := by
    simp [List.filterMap_eq_nil_iff, Event.isCall, Event.taken?, Event.flip?]
  obtain ⟨hn, ht, hf⟩ := hnone
  have htarget : s'.loop.target = s.loop.target := by rw [hl]; rfl
  refine ⟨by rw [hl], by rw [hl], _, ⟨he, ?_, ?_, ?_, ?_⟩, ?_, ?_⟩
  · show _ = s.loop.target.afterAll (rs.map .remark ++ _)
    rw [Target.afterAll_append, hafter, htarget]
    cases call <;> rfl
  · show List.filter _ (rs.map .remark ++ _) =
      (s.loop.target.call? f).toList ++ s.loop.target.calls (rs.map .remark ++ _)
    rw [Target.calls_append, hcalls, hafter, hcall, List.filter_append, hn]
    cases call <;> rfl
  · refine ⟨Bool.noConfusion, ?_⟩
    show s.loop.target.Takes (rs.map .remark ++ _)
    rw [Target.takes_append, hafter]
    refine ⟨htakes, ?_⟩
    cases call with
    | none => trivial
    | some c => exact ⟨Bool.noConfusion, trivial⟩
  · rw [hl]
    exact FrameInterval.timely_flip f
  · show List.filterMap _ (rs.map Event.remark ++ _) = _
    rw [List.filterMap_append, ht]
    cases call <;> rfl
  · show f :: List.filterMap _ (rs.map Event.remark ++ _) = _
    rw [List.filterMap_append, hf]
    cases call <;> rfl

/-- One item of a reading: a completed flip is come to, and nothing else is. -/
theorem handles_item (h : s.loop.interval.Timely) (x : Item) :
    s.Handles (s.item x) [] x.flip?.toList := by
  cases x with
  | remark r => exact handles_remarks h [r]
  | flip f =>
    obtain ⟨rs, hf⟩ := Loop.flip_eq h f
    rw [item, hf]
    dsimp only
    split
    · next hc => exact handles_of_flip rs rfl (by simp [hc, remarks, emit])
    · next c hc =>
      have hflip : s.Handles ((({ s with loop := { s.loop with interval := ⟨some f.time⟩ } }.emit
          [.flipped f]).remarks rs).emit [.vsync c.callback c.display c.time]) [] [f] :=
        handles_of_flip rs rfl (by simp [hc, remarks, emit, callEvent])
      exact hflip.trans (handles_perform hflip.timely c.callback)

theorem handles_items (h : s.loop.interval.Timely) (xs : List Item) :
    s.Handles (xs.foldl item s) [] (xs.filterMap Item.flip?) := by
  induction xs generalizing s with
  | nil => exact .refl h
  | cons x xs ih =>
    have hx := handles_item h x
    have hf : (x :: xs).filterMap Item.flip? = x.flip?.toList ++ xs.filterMap Item.flip? := by
      cases x <;> rfl
    rw [hf]
    exact hx.trans (ih hx.timely)

/-- A reading is taken by a running loop, and all flips in it are come to, in order. -/
theorem handles_handle (h : s.loop.interval.Timely) (hr : s.loop.running = true) (r : Reading) :
    s.Handles (s.handle r) [r] r.flips := by
  have htook : s.Handles (s.emit [.took r]) [r] [] :=
    ⟨rfl, rfl, [.took r], ⟨rfl, rfl, rfl, ⟨fun _ => hr, trivial⟩, h⟩, rfl, rfl⟩
  have hitems := htook.trans (handles_items htook.timely r.items)
  rw [r.filterMap_items] at hitems
  rw [handle]
  generalize r.items.foldl item (s.emit [.took r]) = t at hitems ⊢
  dsimp only
  have harm : t.Handles ({ t with loop := t.loop.arm.1 }.emit [.armed (.next t.loop.pipe)]) [] [] :=
    .of_asides [.armed (.next t.loop.pipe)] (by simp [Event.isAside]) rfl rfl hitems.timely
      rfl rfl
  have hrem := handles_remarks harm.timely t.loop.arm.2
  have hall := ((hitems.trans harm).trans hrem).trans (handles_begin hrem.timely)
  simpa using hall

/-! ### Turns and operations -/

/-- A passage on which the readings `arrived` come in behind those that wait, and some are taken
    from the front; the flips come to are theirs. -/
def Serves (s s' : Session) (arrived : List Reading) : Prop :=
  ∃ es, s.Passes s' es ∧
    es.filterMap Event.taken? ++ s'.loop.device.queued = s.loop.device.queued ++ arrived ∧
    es.filterMap Event.flip? = (es.filterMap Event.taken?).flatMap Reading.flips

theorem Serves.timely {arrived : List Reading} (h : s.Serves s' arrived) :
    s'.loop.interval.Timely := by
  obtain ⟨es, hp, -⟩ := h
  exact hp.timely

theorem Serves.trans {arrived arrived' : List Reading} (h : s.Serves s' arrived)
    (h' : s'.Serves s'' arrived') : s.Serves s'' (arrived ++ arrived') := by
  obtain ⟨es, hp, ht, hf⟩ := h
  obtain ⟨es', hp', ht', hf'⟩ := h'
  refine ⟨es ++ es', hp.trans hp', ?_, ?_⟩
  · rw [List.filterMap_append, List.append_assoc, ht', ← List.append_assoc, ht, List.append_assoc]
  · rw [List.filterMap_append, List.filterMap_append, List.flatMap_append, hf, hf']

/-- A passage that takes no reading; some may come in. -/
theorem Passes.serves {es : List Event} {arrived : List Reading} (h : s.Passes s' es)
    (ht : es.filterMap Event.taken? = []) (hf : es.filterMap Event.flip? = [])
    (hq : s'.loop.device.queued = s.loop.device.queued ++ arrived) : s.Serves s' arrived :=
  ⟨es, h, by rw [ht, hq, List.nil_append], by rw [ht, hf]; rfl⟩

theorem Handles.serves (h : s.Handles s' [] []) : s.Serves s' [] := by
  obtain ⟨-, hq, es, hp, ht, hf⟩ := h
  exact hp.serves ht hf (hq.trans (List.append_nil _).symm)

theorem serves_self (h : s.loop.interval.Timely) : s.Serves s [] := (Handles.refl h).serves

/-- At a turn, a running loop takes the reading that has waited longest. -/
theorem serves_turn (h : s.loop.interval.Timely) :
    s.Serves s.turn [] ∧ s.turn.loop.running = s.loop.running ∧
      (s.loop.running = true → s.turn.loop.device.queued = s.loop.device.queued.tail) := by
  unfold turn
  split
  · next r l htake =>
    obtain ⟨hrun, hqueued, hl⟩ := Loop.of_take?_eq_some htake
    have htarget : l.target = s.loop.target := by rw [hl]; rfl
    have htimely : l.interval.Timely := by rw [hl]; exact h
    have hlrun : l.running = true := by rw [hl]; exact hrun
    obtain ⟨hr, hq, es, hp, ht, hf⟩ := handles_handle (s := { s with loop := l }) htimely hlrun r
    refine ⟨⟨es, ?_, ?_, ?_⟩, ?_, ?_⟩
    · exact ⟨hp.events_eq, htarget ▸ hp.target_eq, htarget ▸ hp.calls_eq, htarget ▸ hp.takes,
        hp.timely⟩
    · rw [ht, hq, hqueued, List.append_nil]
      rfl
    · rw [ht, hf, List.flatMap_singleton]
    · rw [hr, hrun, ← hlrun]
    · intro _
      rw [hq, hqueued]
      rfl
  · next htake =>
    refine ⟨serves_self h, rfl, fun hrun => ?_⟩
    rw [Loop.queued_of_take?_eq_none htake hrun]
    rfl

/-- With as many turns as readings wait, a running loop gets to all of them. -/
theorem serves_repeat_turn (h : s.loop.interval.Timely) (n : Nat) :
    s.Serves (Nat.repeat turn n s) [] ∧ (Nat.repeat turn n s).loop.running = s.loop.running ∧
      (s.loop.running = true →
        (Nat.repeat turn n s).loop.device.queued = s.loop.device.queued.drop n) := by
  induction n with
  | zero => exact ⟨serves_self h, rfl, fun _ => rfl⟩
  | succ n ih =>
    obtain ⟨hs, hr, hq⟩ := ih
    obtain ⟨hs', hr', hq'⟩ := serves_turn hs.timely
    refine ⟨hs.trans hs', hr'.trans hr, fun hrun => ?_⟩
    rw [Nat.repeat, hq' (hr.trans hrun), hq hrun, List.tail_drop]

theorem serves_settle (h : s.loop.interval.Timely) :
    s.Serves s.settle [] ∧ s.settle.loop.running = s.loop.running ∧
      (s.loop.running = true → s.settle.loop.device.queued = []) := by
  obtain ⟨hs, hr, hq⟩ := serves_repeat_turn h s.loop.device.queued.length
  exact ⟨hs, hr, fun hrun => (hq hrun).trans List.drop_length⟩

theorem serves_start (h : s.loop.interval.Timely) :
    s.Serves s.start [] ∧ s.start.loop.running = true := by
  rw [start]
  split
  · next hrun => exact ⟨serves_self h, hrun⟩
  · have hp : s.Passes ({ s with loop := s.loop.start }.emit [.started]) [.started] :=
      passes_of_asides [.started] (by simp [Event.isAside]) rfl rfl h
    have hs : s.Serves ({ s with loop := s.loop.start }.emit [.started]) [] :=
      hp.serves rfl rfl (List.append_nil _).symm
    have hb := handles_begin hp.timely
    exact ⟨hs.trans hb.serves, hb.1⟩

theorem serves_stop (h : s.loop.interval.Timely) :
    s.Serves s.stop [] ∧ s.stop.loop.running = false := by
  rw [stop]
  split
  · have hp : s.Passes ({ s with loop := s.loop.stop }.emit [.stopped]) [.stopped] :=
      passes_of_asides [.stopped] (by simp [Event.isAside]) rfl rfl h
    exact ⟨hp.serves rfl rfl (List.append_nil _).symm, rfl⟩
  · next hrun => exact ⟨serves_self h, Bool.eq_false_iff.2 hrun⟩

end Session

/-- The reading that an operation puts on the device. -/
def Operation.read? : Operation → Option Reading
  | .read r => some r
  | _ => none

/-- Whether the loop runs after an operation. -/
def Operation.runs (before : Bool) : Operation → Bool
  | .start => true
  | .stop => false
  | .power mode => mode.isOn
  | _ => before

namespace Session

variable {s : Session}

/-- To run an operation is to perform it and to let the loop come to rest. -/
theorem foldl_run (s : Session) (ops : List Operation) :
    ops.foldl run s = (ops.flatMap fun op => [Move.act op, .settle]).foldl move s := by
  induction ops generalizing s with
  | nil => rfl
  | cons op ops ih => exact ih _

theorem serves_act (h : s.loop.interval.Timely) (op : Operation) :
    s.Serves (s.act op) op.read?.toList ∧ (s.act op).loop.running = op.runs s.loop.running := by
  cases op with
  | start => exact serves_start h
  | stop => exact serves_stop h
  | power mode =>
    rw [act, Operation.runs]
    split
    · next hon => rw [hon]; exact serves_start h
    · next hon => rw [Bool.eq_false_iff.2 hon]; exact serves_stop h
  | change c =>
    have hc := handles_apply h c
    exact ⟨hc.serves, hc.1⟩
  | read r =>
    have hp : s.Passes { s with loop := s.loop.enqueue r } [] :=
      passes_of_asides [] (List.forall_mem_nil _) (List.append_nil _).symm rfl h
    exact ⟨hp.serves rfl rfl rfl, rfl⟩
  | refuse refuses =>
    have hp : s.Passes (s.act (.refuse refuses)) [] :=
      passes_of_asides [] (List.forall_mem_nil _) (List.append_nil _).symm rfl h
    exact ⟨hp.serves rfl rfl (List.append_nil _).symm, rfl⟩
  | describe => exact ⟨serves_self h, rfl⟩

/-- Over any moves, only the operations among them bring readings in, and start or stop the
    loop. -/
theorem serves_foldl_move (h : s.loop.interval.Timely) (moves : List Move) :
    s.Serves (moves.foldl move s) ((moves.filterMap Move.act?).filterMap Operation.read?) ∧
      (moves.foldl move s).loop.running =
        (moves.filterMap Move.act?).foldl Operation.runs s.loop.running := by
  induction moves generalizing s with
  | nil => exact ⟨serves_self h, rfl⟩
  | cons m moves ih =>
    cases m with
    | act op =>
      obtain ⟨hop, hrun⟩ := serves_act h op
      obtain ⟨hrest, hruns⟩ := ih hop.timely
      have hread : (op :: moves.filterMap Move.act?).filterMap Operation.read? =
          op.read?.toList ++ (moves.filterMap Move.act?).filterMap Operation.read? := by
        cases op <;> rfl
      refine ⟨hread ▸ hop.trans hrest, ?_⟩
      rw [List.foldl_cons, move, hruns, hrun]
      rfl
    | turn =>
      obtain ⟨ht, hrun, -⟩ := serves_turn h
      obtain ⟨hrest, hruns⟩ := ih ht.timely
      exact ⟨ht.trans hrest, hruns.trans (by rw [hrun]; rfl)⟩
    | settle =>
      obtain ⟨ht, hrun, -⟩ := serves_settle h
      obtain ⟨hrest, hruns⟩ := ih ht.timely
      exact ⟨ht.trans hrest, hruns.trans (by rw [hrun]; rfl)⟩

/-- Whatever is done to a loop and whenever it gets its turns, and whatever its callbacks and hooks
    change meanwhile: it runs as the last operation about that says. The readings that have arrived
    are those taken so far, in order, and those that still wait; none is taken at a moment at which
    the loop does not run, and a running loop that comes to rest has taken them all. The flips come
    to are the completed ones in the readings taken, in order, and the calls made are exactly one
    for each of them at whose turn forwarding was enabled and a callback registered: to that
    callback, with its display and with the time of the flip. What was in force at that turn is
    what the events before it say, and after all of them it is what the loop holds. The host asked
    for it, or the script of a hook or a callback that ran did, and whatever they ask for is put in
    force at once. Operations run one after the other, the loop coming to rest after each, are a
    course of moves too. -/
theorem forwards (pipe : Nat) (inert : Bool) (moves : List Move) :
    let s := moves.foldl move (create pipe inert)
    let ops := moves.filterMap Move.act?
    let taken := s.events.filterMap Event.taken?
    s.loop.running = ops.foldl Operation.runs false ∧
    taken ++ s.loop.device.queued = ops.filterMap Operation.read? ∧
    (s.loop.running = true →
      s.settle.events.filterMap Event.taken? = ops.filterMap Operation.read?) ∧
    (∀ before r rest, s.events = before ++ .took r :: rest →
      (Target.afterAll {} before).running = true) ∧
    s.events.filterMap Event.flip? = taken.flatMap Reading.flips ∧
    s.events.filter Event.isCall = Target.calls {} s.events ∧
    s.loop.target = Target.afterAll {} s.events ∧
    s.Logs moves ((create pipe inert).log moves) ∧
    ∀ ran : List Operation, ran.foldl run (create pipe inert) =
      (ran.flatMap fun op => [Move.act op, .settle]).foldl move (create pipe inert) := by
  intro s ops taken
  have htimely : (create pipe inert).loop.interval.Timely := fun t ht => by cases ht
  obtain ⟨⟨es, hp, ht, hf⟩, hrun⟩ := serves_foldl_move htimely moves
  have hes : s.events = es := hp.events_eq
  have htaken : taken ++ s.loop.device.queued = ops.filterMap Operation.read? := by
    show s.events.filterMap Event.taken? ++ _ = _
    rw [hes, ht]
    rfl
  refine ⟨hrun, htaken, ?_, ?_, ?_, ?_, ?_, logs_log pipe inert moves, foldl_run _⟩
  · intro hr
    obtain ⟨⟨es', hp', ht', -⟩, -, hq'⟩ := serves_settle hp.timely
    have hes' : s.settle.events = s.events ++ es' := hp'.events_eq
    have ht' : es'.filterMap Event.taken? = s.loop.device.queued := by
      rw [hq' hr, List.append_nil, List.append_nil] at ht'
      exact ht'
    rw [hes', List.filterMap_append, ht']
    exact htaken
  · intro before r rest hsplit
    exact hp.takes.running (hes ▸ hsplit)
  · show _ = (s.events.filterMap Event.taken?).flatMap _
    rw [hes, hf]
  · rw [hes, hp.calls_eq]
    rfl
  · rw [hes, hp.target_eq]
    rfl

end Session

end VideoWall.Vblank
