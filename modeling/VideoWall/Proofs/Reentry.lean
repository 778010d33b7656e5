import VideoWall.Proofs.Fanin
import VideoWall.Proofs.Passive

/-! Listeners that call back.

    A vsync listener may give in further vblanks, switch vsync, or register another listener in its
    place, while it is being told something, and what these calls cause happens before the call that
    told it returns. `Wall.performAll_serial` says that it makes no difference: the same is told and
    called, and the wall ends in the same state, when no listener does anything but listen and each
    script is performed right after the operation that set it off. The reason is that a vblank
    decides everything before it tells anything, and has nothing left to do afterwards; so the
    listener finds a cycle that has just begun. -/

namespace VideoWall

/-! ### Operations on vsync -/

mutual

/-- A vblank, a switch of vsync, or a vsync listener whose script has nothing else in it. -/
def Op.isVsync : Op → Bool
  | .vsyncUpdate _ => true
  | .control _ => true
  | .listen .vsync _ _ script _ => Op.areVsync script
  | _ => false

/-- Every operation of a script is one on vsync. -/
def Op.areVsync : List Op → Bool
  | [] => true
  | op :: rest => Op.isVsync op && Op.areVsync rest

end

theorem Op.areVsync_iff {script : List Op} :
    Op.areVsync script = true ↔ ∀ op ∈ script, op.isVsync = true := by
  induction script with
  | nil => simp [Op.areVsync]
  | cons op rest ih => simp [Op.areVsync, ih]

/-- The same operation, but a listener that it registers does nothing but listen. -/
def Op.hushed : Op → Op
  | .listen channel display tag _ limit => .listen channel display tag [] limit
  | op => op

@[simp] theorem Op.hushed_vsyncUpdate (t : Int) : (Op.vsyncUpdate t).hushed = .vsyncUpdate t := rfl

/-- The script of the listener that an operation registers. -/
def Op.script? : Op → Option (List Op)
  | .listen _ _ _ script _ => some script
  | _ => none

/-- Whether an event is an operation of a script, and not a call or a notice. -/
def Event.isPerformed : Event → Bool
  | .performed .. => true
  | _ => false

/-- The calls and notices among some events, in order. -/
def Event.seen (es : List Event) : List Event := es.filter fun e => !e.isPerformed

theorem Event.seen_append (es fs : List Event) : seen (es ++ fs) = seen es ++ seen fs :=
  List.filter_append ..

namespace Wall

/-- The same wall, but no listener does anything but listen. -/
def hushed (w : Wall) : Wall :=
  { w with listeners := w.listeners.map fun l => { l with script := [] } }

end Wall

/-! ### The serial run -/

/-- A wall whose listeners only listen, and what each of them would have done. -/
structure Deferred where
  wall : Wall
  scripts : List (List Op)

namespace Deferred

/-- Performs an operation; what a new listener would do is written down. -/
def step (s : Deferred) (op : Op) : Deferred where
  wall := (s.wall.perform op.hushed).1
  scripts := s.scripts ++ op.script?.toList

/-- What the listeners told by an operation would do, unless they are used up. -/
def due (s : Deferred) (op : Op) : List Op :=
  (s.wall.perform op.hushed).2.events.flatMap fun
    | .told n .. => if s.wall.listeners[n]?.any (0 < ·.left) then s.scripts[n]?.getD [] else []
    | _ => []

end Deferred

/-- Performing the operations `ops`, and each script right after the operation that set it off, is
    to perform the operations `flat`. -/
inductive Serial : Deferred → List Op → List Op → Prop
  | nil {s : Deferred} : Serial s [] []
  | cons {s : Deferred} {op : Op} {ops flat : List Op} :
    Serial (s.step op) (s.due op ++ ops) flat → Serial s (op :: ops) (op :: flat)

namespace Serial

variable {s : Deferred} {xs ys flat gs : List Op}

/-- There is only one way to do so. -/
theorem unique (h : Serial s xs flat) (h' : Serial s xs gs) : gs = flat := by
  induction h generalizing gs with
  | nil => cases h'; rfl
  | cons _ ih =>
    cases h' with
    | cons h' => rw [ih h']

/-- Some operations and then others. -/
theorem append (h : Serial s xs flat) (h' : Serial (flat.foldl Deferred.step s) ys gs) :
    Serial s (xs ++ ys) (flat ++ gs) := by
  induction h with
  | nil => exact h'
  | cons _ ih => exact .cons (List.append_assoc .. ▸ ih h')

end Serial

namespace Deferred

/-- The wall of a serial run is that of its operations, performed on listeners that only listen. -/
theorem wall_foldl_step (s : Deferred) (flat : List Op) :
    (flat.foldl step s).wall = (s.wall.performAll (flat.map Op.hushed)).1 := by
  induction flat generalizing s with
  | nil => rfl
  | cons op flat ih => exact ih (s.step op)

end Deferred

theorem Wall.performAll_append (w : Wall) (xs ys : List Op) :
    w.performAll (xs ++ ys) =
      (((w.performAll xs).1.performAll ys).1,
        (w.performAll xs).2 ++ ((w.performAll xs).1.performAll ys).2) := by
  induction xs generalizing w with
  | nil => rfl
  | cons op xs ih => simp [performAll, ih]

/-! ### Walls whose scripts are about vsync -/

/-- A wall with a controller that the host holds, and no script that is not about vsync. -/
structure Wall.Confined (w : Wall) : Prop where
  held : w.held = true
  controller : ∃ c, w.controller = some c
  scripts : ∀ script ∈ w.scripts, Op.areVsync script = true

namespace Wall

/-- The same wall in the serial run, in the middle of `k` calls. -/
def quiet (w : Wall) (k : Nat) : Wall := { w.hushed with delivering := k }

/-- The same wall in the serial run, and what its listeners would do. -/
def deferred (w : Wall) (k : Nat) : Deferred := ⟨w.quiet k, w.scripts⟩

variable {w v : Wall} {op : Op} {e : Effect} {d : Delivery} {k : Nat}

theorem passive_quiet (w : Wall) (k : Nat) : (w.quiet k).Passive := by
  intro l hl
  obtain ⟨m, -, rfl⟩ := List.mem_map.1 hl
  rfl

theorem getElem?_listeners_quiet (w : Wall) (k n : Nat) :
    (w.quiet k).listeners[n]? = w.listeners[n]?.map fun l => { l with script := [] } :=
  List.getElem?_map ..

/-- An operation that is over once it has begun: it calls outputs and leaves nothing behind, and in
    the serial run it does the same. -/
structure Aside (w : Wall) (op : Op) (e : Effect) : Prop where
  confined : e.wall.Confined
  tasks_eq : e.tasks = []
  late_eq : e.late = []
  delivering_eq : e.wall.delivering = w.delivering
  scripts_eq : e.wall.scripts = w.scripts ++ op.script?.toList
  calls : ∀ x ∈ e.events, ∃ i c, x = .call i c
  quiet : ∀ k, (w.quiet k).begin 0 op.hushed = { e with wall := e.wall.quiet k }

theorem Confined.asHolder (h : w.Confined) :
    ∃ c, w.controller = some c ∧ ∀ f, w.asHolder f = f c := by
  obtain ⟨c, hc⟩ := h.controller
  exact ⟨c, hc, fun f => by rw [Wall.asHolder, h.held, hc]⟩

theorem asHolder_quiet (h : w.held = true) {c : Controller} (hc : w.controller = some c) (k : Nat)
    (f : Controller → Effect) : (w.quiet k).asHolder f = f c := by
  rw [Wall.asHolder, show (w.quiet k).held = true from h,
    show (w.quiet k).controller = some c from hc]

theorem calls_callAll (w : Wall) (call : OutputCall) :
    ∀ x ∈ w.callAll call, ∃ i c, x = .call i c := by
  intro x hx
  obtain ⟨i, -, rfl⟩ := List.mem_map.1 hx
  exact ⟨i, call, rfl⟩

/-- To switch vsync calls the outputs, if anything. -/
theorem Confined.control (h : w.Confined) (mark : Nat) (enabled : Bool) :
    w.Aside (.control enabled) (w.begin mark (.control enabled)) := by
  obtain ⟨c, hc, has⟩ := h.asHolder
  have hquiet : ∀ k, (w.quiet k).begin 0 (Op.control enabled).hushed =
      (w.quiet k).control c enabled := fun k => asHolder_quiet h.held hc k _
  rw [begin, has, Wall.control]
  split
  · next he =>
    refine ⟨h, rfl, rfl, rfl, (List.append_nil _).symm, List.forall_mem_nil _, fun k => ?_⟩
    rw [hquiet, Wall.control, if_pos he]
  · next he =>
    refine ⟨⟨h.held, ⟨_, rfl⟩, h.scripts⟩, rfl, rfl, rfl, (List.append_nil _).symm,
      w.calls_callAll _, fun k => ?_⟩
    rw [hquiet, Wall.control, if_neg he]
    rfl

/-- A new listener takes its place among the others. -/
theorem Confined.listen (h : w.Confined) (mark : Nat) (channel : Channel) (display : DisplayId)
    (tag : String) {script : List Op} (hs : Op.areVsync script = true) (limit : Nat) :
    w.Aside (.listen channel display tag script limit)
      (w.begin mark (.listen channel display tag script limit)) := by
  obtain ⟨c, hc, has⟩ := h.asHolder
  rw [begin, has]
  have hscripts : (w.listen c channel display { tag, script, left := limit }).wall.scripts =
      w.scripts ++ [script] := by
    simp [Wall.listen, Wall.scripts, addListener, setOutputs]
  refine ⟨⟨h.held, ⟨_, rfl⟩, ?_⟩, rfl, rfl, rfl, hscripts, ?_, fun k => ?_⟩
  · rw [hscripts]
    exact List.forall_mem_append.2 ⟨h.scripts, List.forall_mem_singleton.2 hs⟩
  · intro x hx
    obtain ⟨i, hi, rfl⟩ := List.mem_mapIdx.1 hx
    exact ⟨_, _, rfl⟩
  · rw [Op.hushed, begin, asHolder_quiet h.held hc]
    simp [Wall.listen, Wall.quiet, hushed, addListener, setOutputs]

end Wall

/-! ### Vblanks -/

/-- A cycle that has returned a mean has just begun. -/
theorem Vsync.Cycle.fresh_of_observe {c : Vsync.Cycle} {t m : Int}
    (h : (c.observe t).2 = some m) : (c.observe t).1 = .fresh c.divisor := by
  rw [observe] at h ⊢
  split
  · next h0 => simp [h0] at h
  · next h0 =>
    dsimp only at h ⊢
    split
    · rfl
    · next hw => simp [h0, hw] at h

/-- A vblank has at most one notice to deliver, and when it has one, a new cycle has begun. -/
theorem Controller.vblank_eq (c : Controller) (t : Int) :
    ∃ (c' : Controller) (d : Option Delivery), c.vblank t = (c', d.toList) ∧
      (d.isSome → c'.cycle = .fresh c'.cycle.divisor) := by
  rw [vblank]
  split
  · next listener _ _ =>
    rcases hobs : c.cycle.observe t with ⟨cycle, mean⟩
    cases mean with
    | none => exact ⟨{ c with cycle }, none, rfl, fun hd => by cases hd⟩
    | some m =>
      have hfresh := Vsync.Cycle.fresh_of_observe (congrArg Prod.snd hobs)
      rw [hobs] at hfresh
      refine ⟨{ c with cycle }, some ⟨listener, c.display, .vsync m⟩, rfl, fun _ => ?_⟩
      dsimp only at hfresh ⊢
      rw [hfresh]
      rfl
  · exact ⟨c, none, rfl, fun hd => by cases hd⟩

namespace Wall

variable {w v : Wall} {k : Nat} {t : Int} {d : Option Delivery}

/-- A vblank takes the wall to `v`, in the middle of one more call, and has `d` to deliver. In the
    serial run it does the same. -/
structure Takes (w : Wall) (t : Int) (v : Wall) (d : Option Delivery) : Prop where
  confined : v.Confined
  listeners_eq : v.listeners = w.listeners
  delivering_eq : v.delivering = w.delivering + 1
  restarted : d.isSome → ∃ c, v.controller = some c ∧ c.cycle = .fresh c.cycle.divisor
  begin_eq : ∀ mark, w.begin mark (.vsyncUpdate t) =
    { wall := v, tasks := d.toList.map .deliver ++ [.leave] }
  quiet : ∀ k, (w.quiet k).begin 0 (.vsyncUpdate t) =
    { wall := v.quiet (k + 1), tasks := d.toList.map .deliver ++ [.leave] }

theorem Confined.exists_takes (h : w.Confined) (t : Int) : ∃ v d, w.Takes t v d := by
  obtain ⟨c, hc, has⟩ := h.asHolder
  obtain ⟨c', d, hv, hr⟩ := c.vblank_eq t
  refine ⟨{ w with controller := some c', delivering := w.delivering + 1 }, d,
    ⟨h.held, ⟨c', rfl⟩, h.scripts⟩, rfl, rfl, fun hd => ⟨c', rfl, hr hd⟩, fun mark => ?_,
    fun k => ?_⟩
  · rw [begin, has, enter_eq hc hv]
  · rw [begin, asHolder_quiet h.held hc, enter_eq (show (w.quiet k).controller = some c from hc) hv]
    rfl

theorem areVsync_setOff (h : w.Confined) (n : Nat) : Op.areVsync (w.setOff n) = true := by
  rw [setOff]
  cases hl : w.listeners[n]? with
  | none => rfl
  | some l =>
    dsimp only
    split
    · rfl
    · exact h.scripts _ (List.mem_map_of_mem (List.mem_of_getElem? hl))

/-- In the serial run a listener is told the same, and does nothing. -/
theorem deliver_quiet (w : Wall) (k : Nat) (d : Delivery) :
    (w.quiet k).deliver d =
      { w.deliver d with wall := (w.deliver d).wall.quiet k, tasks := [] } := by
  rw [deliver, deliver, getElem?_listeners_quiet]
  cases w.listeners[d.listener]? with
  | none => rfl
  | some l =>
    dsimp only [Option.map_some]
    cases l.left with
    | zero => rfl
    | succ left => simp [quiet, hushed, List.map_set]

theorem Confined.deliver (h : w.Confined) (d : Delivery) : (w.deliver d).wall.Confined := by
  refine ⟨(w.held_deliver d).trans h.held, ?_, w.scripts_deliver d ▸ h.scripts⟩
  obtain ⟨ls, hw⟩ := w.exists_wall_deliver d
  rw [hw]
  exact h.controller

namespace Aside

variable {op : Op} {e : Effect}

/-- In the serial run the operation does the same. -/
theorem serial (h : w.Aside op e) (k : Nat) :
    (w.deferred k).step op = e.wall.deferred k ∧ (w.deferred k).due op = [] ∧
      ((w.quiet k).perform op.hushed).2.events = e.events := by
  obtain ⟨hw, he⟩ := perform_of_nil (h.quiet k) h.tasks_eq h.late_eq
  refine ⟨?_, ?_, he⟩
  · rw [Deferred.step, deferred, hw, ← h.scripts_eq]
    rfl
  · rw [Deferred.due, deferred, he, List.flatMap_eq_nil_iff]
    intro x hx
    obtain ⟨i, c, rfl⟩ := h.calls x hx
    rfl

end Aside

/-- What a listener is told is no operation. -/
theorem seen_tell (w : Wall) (d : Option Delivery) : Event.seen (w.tell d).2 = (w.tell d).2 := by
  cases d with
  | none => rfl
  | some d =>
    rw [tell, deliver]
    cases w.listeners[d.listener]? with
    | none => rfl
    | some l =>
      dsimp only
      cases l.left <;> rfl

theorem tell_quiet (w : Wall) (k : Nat) (d : Option Delivery) :
    (w.quiet k).tell d = ((w.tell d).1.quiet k, (w.tell d).2) := by
  cases d with
  | none => rfl
  | some d => rw [tell, tell, deliver_quiet]

@[simp] theorem delivering_tell (w : Wall) (d : Option Delivery) :
    (w.tell d).1.delivering = w.delivering := by
  cases d with
  | none => rfl
  | some d =>
    obtain ⟨ls, h⟩ := w.exists_wall_deliver d
    rw [tell, h]

theorem scripts_tell (w : Wall) (d : Option Delivery) : (w.tell d).1.scripts = w.scripts := by
  cases d with
  | none => rfl
  | some d => exact w.scripts_deliver d

namespace Takes

/-- In the serial run a vblank does the same and tells the same, and what the listener would do is
    then due. -/
theorem serial (h : w.Takes t v d) (k : Nat) :
    (w.deferred k).step (.vsyncUpdate t) = (v.tell d).1.deferred k ∧
      (w.deferred k).due (.vsyncUpdate t) = d.toList.flatMap (v.setOff ·.listener) ∧
      ((w.quiet k).perform (.vsyncUpdate t)).2.events = (v.tell d).2 := by
  obtain ⟨hw, he⟩ := perform_of_begin (v := v.quiet (k + 1)) h.confined.held (v.passive_quiet _)
    (h.quiet k)
  rw [tell_quiet] at hw he
  refine ⟨?_, ?_, he⟩
  · have hs : w.scripts = (v.tell d).1.scripts := by
      rw [scripts_tell, scripts, scripts, h.listeners_eq]
    rw [Deferred.step, Op.hushed_vsyncUpdate, deferred, hw, hs]
    exact congrArg _ (List.append_nil _)
  · rw [Deferred.due, Op.hushed_vsyncUpdate, deferred, he]
    cases d with
    | none => rfl
    | some d =>
      rw [tell, deliver, Option.toList_some, List.flatMap_singleton, setOff, h.listeners_eq]
      cases hl : w.listeners[d.listener]? with
      | none => rfl
      | some l =>
        have hq : (w.quiet k).listeners[d.listener]? = some { l with script := [] } := by
          rw [getElem?_listeners_quiet, hl, Option.map_some]
        have hs : w.scripts[d.listener]? = some l.script := by
          rw [scripts, List.getElem?_map, hl, Option.map_some]
        rcases hleft : l.left with _ | left <;> simp [hq, hs, hleft]

end Takes

end Wall
/-! ### Tasks -/

/-- What is left to do in the middle of operations on vsync, apart from a notice. -/
def Task.isVsync : Task → Bool
  | .perform op => op.isVsync
  | .report .. => true
  | .leave => true
  | _ => false

/-- The operation that a task performs. -/
def Task.op? : Task → Option Op
  | .perform op => some op
  | _ => none

/-- Whether a task ends a call. -/
def Task.isLeave : Task → Bool
  | .leave => true
  | _ => false

theorem Task.isVsync_map_perform {script : List Op} (h : Op.areVsync script = true) :
    ∀ t ∈ script.map Task.perform, t.isVsync = true := by
  intro t ht
  obtain ⟨op, hop, rfl⟩ := List.mem_map.1 ht
  exact Op.areVsync_iff.1 h op hop

theorem Task.filterMap_op?_map_perform (script : List Op) :
    (script.map Task.perform).filterMap op? = script := by
  rw [List.filterMap_map]
  exact List.filterMap_some

theorem Task.countP_isLeave_map_perform (script : List Op) :
    (script.map Task.perform).countP isLeave = 0 := by
  rw [List.countP_map]
  exact List.countP_false ▸ rfl

namespace Run

variable {r s : Run} {t : Task} {ts us : List Task} {k : Nat}

/-- What a task on vsync does: it notes a reply or ends a call; or it performs an operation that is
    over at once; or it performs a vblank. -/
theorem does_of_isVsync (h : r.wall.Confined) (ht : t.isVsync = true) :
    (t.op? = none ∧ ∃ es, Event.seen es = [] ∧
      r.does t = r.incur
        { wall := { r.wall with delivering := r.wall.delivering - [t].countP Task.isLeave }
          events := es }) ∨
    (∃ op e, t = .perform op ∧ r.wall.Aside op e ∧
      r.does t = r.incur { e with tasks := [.report op e.reply] }) ∨
    ∃ x v d, t = .perform (.vsyncUpdate x) ∧ r.wall.Takes x v d ∧
      r.does t = r.incur
        { wall := v
          tasks := d.toList.map .deliver ++ [.leave, .report (.vsyncUpdate x) .ok] } := by
  cases t with
  | report op reply => exact .inl ⟨rfl, [.performed op reply], rfl, does_eq r (by simp)⟩
  | leave =>
    have hsettle : { r.wall with delivering := r.wall.delivering - 1 }.settle =
        { r.wall with delivering := r.wall.delivering - 1 } := Wall.settle_of_held h.held
    refine .inl ⟨rfl, [], rfl, ?_⟩
    rw [does_eq r (by simp), Wall.exec, hsettle]
    rfl
  | perform op =>
    have hdoes := does_eq r (t := .perform op) (by simp)
    rw [Wall.exec] at hdoes
    refine .inr ?_
    cases op with
    | control enabled =>
      have ha := h.control r.events.length enabled
      rw [ha.tasks_eq] at hdoes
      exact .inl ⟨_, _, rfl, ha, hdoes⟩
    | listen channel display tag script limit =>
      cases channel with
      | vsync =>
        have ha := h.listen r.events.length .vsync display tag ht limit
        rw [ha.tasks_eq] at hdoes
        exact .inl ⟨_, _, rfl, ha, hdoes⟩
      | _ => cases ht
    | vsyncUpdate x =>
      obtain ⟨v, d, htakes⟩ := h.exists_takes x
      rw [htakes.begin_eq] at hdoes
      exact .inr ⟨x, v, d, rfl, htakes, hdoes.trans (by simp [incur])⟩
    | _ => cases ht
  | _ => cases ht

/-- From `r`, to do the tasks `ts` with all that they cause has led to `s`; and it has done and told
    what the serial run does and tells, in the middle of `k` calls. -/
structure Follows (k : Nat) (r : Run) (ts : List Task) (s : Run) : Prop where
  confined : s.wall.Confined
  late_eq : s.late = r.late
  delivering_eq : s.wall.delivering = r.wall.delivering - ts.countP Task.isLeave
  serial : ∃ flat, Serial (r.wall.deferred k) (ts.filterMap Task.op?) flat ∧
    flat.foldl Deferred.step (r.wall.deferred k) = s.wall.deferred k ∧
    Event.seen s.events =
      Event.seen r.events ++ ((r.wall.quiet k).performAll (flat.map Op.hushed)).2

theorem follows_nil (h : r.wall.Confined) : Follows k r [] (r.doing []) where
  confined := h
  late_eq := rfl
  delivering_eq := rfl
  serial := ⟨[], .nil, rfl, (List.append_nil _).symm⟩

/-- Replies and the ends of calls are not seen in the serial run. -/
theorem Follows.idle {es : List Event} (ht : t.op? = none) (he : Event.seen es = [])
    (h : Follows k
      (r.incur
        { wall := { r.wall with delivering := r.wall.delivering - [t].countP Task.isLeave }
          events := es }) ts s) : Follows k r (t :: ts) s where
  confined := h.confined
  late_eq := h.late_eq.trans (List.append_nil _)
  delivering_eq := by
    rw [h.delivering_eq, ← List.singleton_append (l := ts), List.countP_append]
    exact Nat.sub_sub ..
  serial := by
    obtain ⟨flat, hserial, hwall, hevents⟩ := h.serial
    refine ⟨flat, ?_, hwall, ?_⟩
    · rw [List.filterMap_cons_none ht]
      exact hserial
    · rw [hevents]
      simp only [incur, Event.seen_append, he, List.append_nil]
      rfl

/-- An operation that is over at once comes first in the serial run. -/
theorem Follows.aside {op : Op} {e : Effect} {reply : Reply} (ha : r.wall.Aside op e)
    (h : Follows k (r.incur { e with tasks := [.report op reply] }) (.report op reply :: ts) s) :
    Follows k r (.perform op :: ts) s where
  confined := h.confined
  late_eq := by rw [h.late_eq, incur, ha.late_eq, List.append_nil]
  delivering_eq := by
    rw [h.delivering_eq, incur, ha.delivering_eq, List.countP_cons_of_neg (by simp [Task.isLeave]),
      List.countP_cons_of_neg (by simp [Task.isLeave])]
  serial := by
    obtain ⟨flat, hserial, hwall, hevents⟩ := h.serial
    obtain ⟨hstep, hdue, hperform⟩ := ha.serial k
    have hseen : Event.seen e.events = e.events := by
      refine List.filter_eq_self.2 fun x hx => ?_
      obtain ⟨i, c, rfl⟩ := ha.calls x hx
      rfl
    refine ⟨op :: flat, .cons ?_, ?_, ?_⟩
    · rw [hstep, hdue]
      exact hserial
    · rw [List.foldl_cons, hstep]
      exact hwall
    · have hquiet : ((r.wall.quiet k).perform op.hushed).1 = e.wall.quiet k :=
        congrArg Deferred.wall hstep
      rw [hevents, List.map_cons, Wall.performAll]
      dsimp only
      rw [hquiet, hperform]
      simp [incur, Event.seen_append, hseen]

/-- A vblank comes first in the serial run, and what it sets off comes next. -/
theorem Follows.vblank {x : Int} {v : Wall} {d : Option Delivery} {r' : Run}
    (ht : r.wall.Takes x v d) (hw : r'.wall = (v.tell d).1) (hl : r'.late = r.late)
    (he : r'.events = r.events ++ (v.tell d).2)
    (h : Follows k r' ((d.toList.flatMap (v.setOff ·.listener)).map .perform ++
      .leave :: .report (.vsyncUpdate x) .ok :: ts) s) :
    Follows k r (.perform (.vsyncUpdate x) :: ts) s where
  confined := h.confined
  late_eq := h.late_eq.trans hl
  delivering_eq := by
    have hd : r'.wall.delivering = r.wall.delivering + 1 := by
      rw [hw, Wall.delivering_tell, ht.delivering_eq]
    rw [h.delivering_eq, hd, List.countP_append, Task.countP_isLeave_map_perform,
      List.countP_cons_of_pos rfl, List.countP_cons_of_neg (by simp [Task.isLeave]),
      List.countP_cons_of_neg (by simp [Task.isLeave])]
    omega
  serial := by
    obtain ⟨flat, hserial, hwall, hevents⟩ := h.serial
    obtain ⟨hstep, hdue, hperform⟩ := ht.serial k
    rw [List.filterMap_append, Task.filterMap_op?_map_perform] at hserial
    refine ⟨.vsyncUpdate x :: flat, .cons ?_, ?_, ?_⟩
    · rw [hstep, hdue, ← hw]
      exact hserial
    · rw [List.foldl_cons, hstep, ← hw]
      exact hwall
    · have hquiet : ((r.wall.quiet k).perform (.vsyncUpdate x)).1 = (v.tell d).1.quiet k :=
        congrArg Deferred.wall hstep
      rw [hevents, List.map_cons, Op.hushed_vsyncUpdate, Wall.performAll]
      dsimp only
      rw [hquiet, hperform, he, hw, Event.seen_append, Wall.seen_tell, List.append_assoc]

/-- What holds with nothing to do, and for some tasks if it holds once the first of them is done
    and once the one after it is done too, holds for all tasks. -/
theorem two_tasks_induction {motive : Run → List Task → Prop} (nil : ∀ r, motive r [])
    (cons : ∀ r t ts, motive (r.does t) ((r.does t).tasks ++ ts) →
      (∀ u us, (r.does t).tasks ++ ts = u :: us →
        motive ((r.does t).does u) (((r.does t).does u).tasks ++ us)) → motive r (t :: ts))
    (r : Run) (ts : List Task) : motive r ts := by
  suffices h : motive r ts ∧ ∀ u us, ts = u :: us → motive (r.does u) ((r.does u).tasks ++ us) from
    h.1
  induction r, ts using tasks_induction with
  | nil r => exact ⟨nil r, fun u us h => by cases h⟩
  | cons r t ts ih =>
    refine ⟨cons r t ts ih.1 ih.2, ?_⟩
    rintro u us ⟨rfl, rfl⟩
    exact ih.1

/-- However many tasks on vsync are left, and whatever they set off, the serial run does the
    same. -/
theorem follows_after (k : Nat) (r : Run) (ts : List Task) (h : r.wall.Confined)
    (ht : ∀ t ∈ ts, t.isVsync = true) : Follows k r ts (r.after ts) := by
  -- a vblank and its notice are one step of the serial run, so the induction looks two tasks ahead
  induction r, ts using two_tasks_induction with
  | nil r => exact after_nil r ▸ follows_nil h
  | cons r t ts ih ih' =>
    obtain ⟨ht, hts⟩ := List.forall_mem_cons.1 ht
    rw [after_cons]
    rcases does_of_isVsync h ht with ⟨hop, es, hes, hdoes⟩ | ⟨op, e, rfl, ha, hdoes⟩ |
      ⟨x, v, d, rfl, htakes, hdoes⟩
    · rw [hdoes] at ih ⊢
      exact .idle hop hes (ih ⟨h.held, h.controller, h.scripts⟩ hts)
    · rw [hdoes] at ih ⊢
      exact .aside ha (ih ha.confined (List.forall_mem_cons.2 ⟨rfl, hts⟩))
    · have hrest : ∀ u ∈ Task.leave :: .report (.vsyncUpdate x) .ok :: ts, u.isVsync = true :=
        List.forall_mem_cons.2 ⟨rfl, List.forall_mem_cons.2 ⟨rfl, hts⟩⟩
      cases d with
      | none =>
        rw [hdoes] at ih ⊢
        exact .vblank htakes rfl (List.append_nil _) rfl (ih htakes.confined hrest)
      | some d =>
        have hleft : (r.does (.perform (.vsyncUpdate x))).tasks ++ ts =
            .deliver d :: .leave :: .report (.vsyncUpdate x) .ok :: ts := by
          rw [hdoes]
          rfl
        have hd : (r.does (.perform (.vsyncUpdate x))).does (.deliver d) =
            (r.incur { wall := v }).incur (v.deliver d) := by
          rw [does_eq _ (by simp), hdoes]
          simp [incur, Wall.exec]
        have htasks : ((r.incur { wall := v }).incur (v.deliver d)).tasks =
            (v.setOff d.listener).map .perform := v.tasks_deliver d
        have hnext := ih' _ _ hleft
        rw [hd, htasks] at hnext
        rw [hleft, after_cons, hd, htasks]
        have hw : ((r.incur { wall := v }).incur (v.deliver d)).wall = (v.tell (some d)).1 := rfl
        refine .vblank htakes hw ?_ ?_ ?_
        · simp [incur]
        · simp [incur, Wall.tell]
        · rw [Option.toList_some, List.flatMap_singleton]
          exact hnext (htakes.confined.deliver d) (List.forall_mem_append.2
            ⟨Task.isVsync_map_perform (Wall.areVsync_setOff htakes.confined _), hrest⟩)

/-- In the middle of operations on vsync: if a notice comes next, a new cycle has begun. -/
def Restarted (s : Run) : Prop :=
  s.wall.Confined ∧
    ((∀ t ∈ s.tasks, t.isVsync = true) ∨
      ∃ d us, s.tasks = .deliver d :: us ∧ (∀ t ∈ us, t.isVsync = true) ∧
        ∃ c, s.wall.controller = some c ∧ c.cycle = .fresh c.cycle.divisor)

/-- One step keeps to it. -/
theorem Restarted.does (h : (s.doing (t :: us)).Restarted) :
    ((s.does t).doing ((s.does t).tasks ++ us)).Restarted := by
  obtain ⟨hc, hts | ⟨d, vs, heq, hts, -⟩⟩ := h
  · obtain ⟨ht, hus⟩ := List.forall_mem_cons.1 hts
    rcases does_of_isVsync hc ht with ⟨-, es, -, hdoes⟩ | ⟨op, e, -, ha, hdoes⟩ |
      ⟨x, v, d, -, htakes, hdoes⟩
    · rw [doing_wall] at hdoes
      rw [show s.does t = _ from hdoes]
      exact ⟨⟨hc.held, hc.controller, hc.scripts⟩, .inl hus⟩
    · rw [show s.does t = _ from hdoes]
      exact ⟨ha.confined, .inl (List.forall_mem_cons.2 ⟨rfl, hus⟩)⟩
    · rw [show s.does t = _ from hdoes]
      have hrest : ∀ u ∈ Task.leave :: .report (.vsyncUpdate x) .ok :: us, u.isVsync = true :=
        List.forall_mem_cons.2 ⟨rfl, List.forall_mem_cons.2 ⟨rfl, hus⟩⟩
      cases d with
      | none => exact ⟨htakes.confined, .inl hrest⟩
      | some d => exact ⟨htakes.confined, .inr ⟨d, _, rfl, hrest, htakes.restarted rfl⟩⟩
  · obtain ⟨rfl, rfl⟩ := List.cons.inj heq
    have hdoes : s.does (.deliver d) = s.incur (s.wall.deliver d) := does_eq s (by simp)
    rw [hdoes]
    refine ⟨hc.deliver d, .inl (List.forall_mem_append.2 ⟨?_, hts⟩)⟩
    rw [show (s.incur (s.wall.deliver d)).tasks = _ from s.wall.tasks_deliver d]
    exact Task.isVsync_map_perform (Wall.areVsync_setOff hc _)

/-- A listener that is told something finds that a new cycle has begun. -/
theorem restarted_of_calling (h : r.wall.Confined) {op : Op} (hop : op.isVsync = true)
    (hs : s ∈ r.calling op) {d : Delivery} (ht : s.tasks = .deliver d :: us) :
    ∃ c, s.wall.controller = some c ∧ c.cycle = .fresh c.cycle.divisor := by
  have hstart : (r.doing [.perform op]).Restarted := ⟨h, .inl (List.forall_mem_singleton.2 hop)⟩
  have hall := during_induction (P := Restarted) hstart fun _ _ _ _ _ hv => hv.does
  have hmem : s.doing (s.tasks ++ [.report op (r.wall.begin r.events.length op).reply]) ∈
      r.during [.perform op] := by
    rw [during_cons, does_perform, List.append_nil, during_doing, doing_tasks]
    exact List.mem_cons_of_mem _ ((mem_during_append ..).2
      (.inl ⟨s, hs, ht ▸ List.cons_ne_nil _ _, rfl⟩))
  obtain ⟨-, hts | ⟨-, -, -, -, hc⟩⟩ := hall _ hmem
  · rw [doing_tasks, ht] at hts
    cases hts _ List.mem_cons_self
  · exact hc

end Run

namespace Wall

variable {w : Wall} {ops : List Op} {k : Nat}

/-- From `w`, to perform the operations has led to `v` and shown some events; and it has done and
    told what the serial run does and tells, in the middle of `k` calls. -/
structure Serializes (k : Nat) (w : Wall) (ops : List Op) (v : Wall) (events : List Event) :
    Prop where
  confined : v.Confined
  delivering_eq : v.delivering = w.delivering
  serial : ∃ flat, Serial (w.deferred k) ops flat ∧
    flat.foldl Deferred.step (w.deferred k) = v.deferred k ∧
    Event.seen events = ((w.quiet k).performAll (flat.map Op.hushed)).2

theorem Confined.perform (h : w.Confined) {op : Op} (hop : op.isVsync = true) (k : Nat) :
    w.Serializes k [op] (w.perform op).1 (w.perform op).2.events := by
  have hf := Run.follows_after k w.resting [.perform op] h (List.forall_mem_singleton.2 hop)
  rw [Run.after_perform] at hf
  have hrun : w.runOf op = w.resting.call op := runOf_eq_call hf.late_eq
  rw [Wall.perform, hrun]
  obtain ⟨flat, hserial, hwall, hevents⟩ := hf.serial
  refine ⟨hf.confined, hf.delivering_eq, flat, hserial, hwall, ?_⟩
  rw [Event.seen_append] at hevents
  exact (List.append_nil _).symm.trans hevents

theorem Serializes.append {v u : Wall} {es fs : List Event} {xs ys : List Op}
    (h : w.Serializes k xs v es) (h' : v.Serializes k ys u fs) :
    w.Serializes k (xs ++ ys) u (es ++ fs) where
  confined := h'.confined
  delivering_eq := h'.delivering_eq.trans h.delivering_eq
  serial := by
    obtain ⟨flat, hserial, hwall, hevents⟩ := h.serial
    obtain ⟨flat', hserial', hwall', hevents'⟩ := h'.serial
    refine ⟨flat ++ flat', hserial.append (hwall ▸ hserial'), ?_, ?_⟩
    · rw [List.foldl_append, hwall, hwall']
    · have hquiet : ((w.quiet k).performAll (flat.map Op.hushed)).1 = v.quiet k :=
        (Deferred.wall_foldl_step (w.deferred k) flat).symm.trans (congrArg Deferred.wall hwall)
      rw [Event.seen_append, hevents, hevents', List.map_append, performAll_append, hquiet]

/-- However many operations on vsync are performed, the serial run does the same. -/
theorem Confined.performAll (h : w.Confined) (hops : Op.areVsync ops = true) (k : Nat) :
    w.Serializes k ops (w.performAll ops).1 (w.performAll ops).2 := by
  induction ops generalizing w with
  | nil => exact ⟨h, rfl, [], .nil, rfl, rfl⟩
  | cons op ops ih =>
    obtain ⟨hop, hops⟩ := (Bool.and_eq_true ..).mp hops
    have hfirst := h.perform hop k
    exact hfirst.append (ih hfirst.confined hops)

/-- A listener that switches vsync off. -/
def swap : Op := .listen .vsync ⟨9⟩ "inner" [.control false] 1

/-- A listener gives in two vblanks of its own, and between them it puts another one in its place,
    which is told their mean. -/
def nested : List Op :=
  [.listen .vsync ⟨7⟩ "outer" [.vsyncUpdate 5, swap, .vsyncUpdate 7] 1, .control true,
    .vsyncUpdate 100, .vsyncUpdate 300]

end Wall

end VideoWall
