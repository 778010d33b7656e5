import VideoWall.Proofs.Drain
import VideoWall.Proofs.Frame

/-! What listeners do, and walls on which they do nothing but listen.

    To tell a listener something uses up one run of its script and changes nothing else. When no
    listener has a script, a call on the controller is over as soon as its notices are delivered, so
    an operation that delivers a single notice has a closed form: `Wall.perform_of_begin`. -/

namespace VideoWall

namespace Wall

/-- What the listeners do when they are told something. -/
def scripts (w : Wall) : List (List Op) := w.listeners.map (·.script)

/-- What a listener that is told something does, unless it is used up. -/
def setOff (w : Wall) (n : Nat) : List Op :=
  match w.listeners[n]? with
  | some l => if l.left = 0 then [] else l.script
  | none => []

/-- No listener has a script. -/
def Passive (w : Wall) : Prop := ∀ l ∈ w.listeners, l.script = []

/-- Tells a listener something, if there is anything to tell: the wall afterwards, and what could
    be seen. -/
def tell (w : Wall) : Option Delivery → Wall × List Event
  | none => (w, [])
  | some d => ((w.deliver d).wall, (w.deliver d).events)

variable {w v : Wall}

/-- A call on the controller that is there. -/
theorem enter_eq {c c' : Controller} {ds : List Delivery}
    {d : Controller → Controller × List Delivery} (hc : w.controller = some c)
    (hd : d c = (c', ds)) :
    w.enter d =
      { wall := { w with controller := some c', delivering := w.delivering + 1 }
        tasks := ds.map .deliver ++ [.leave] } := by
  rw [enter, hc]
  dsimp only
  rw [hd]

/-- A notice changes nothing but how often a listener may still act. -/
theorem exists_wall_deliver (w : Wall) (d : Delivery) :
    ∃ ls, (w.deliver d).wall = { w with listeners := ls } := by
  rcases w.deliver_cases d with ⟨he, -⟩ | ⟨l, -, ⟨-, he⟩ | ⟨left, -, he⟩⟩ <;> exact ⟨_, by rw [he]⟩

@[simp] theorem held_deliver (w : Wall) (d : Delivery) : (w.deliver d).wall.held = w.held := by
  obtain ⟨ls, h⟩ := w.exists_wall_deliver d
  rw [h]

@[simp] theorem late_deliver (w : Wall) (d : Delivery) : (w.deliver d).late = [] := by
  rcases w.deliver_cases d with ⟨he, -⟩ | ⟨l, -, ⟨-, he⟩ | ⟨left, -, he⟩⟩ <;> rw [he]

@[simp] theorem log_deliver (w : Wall) (d : Delivery) : (w.deliver d).log = [] := by
  rcases w.deliver_cases d with ⟨he, -⟩ | ⟨l, -, ⟨-, he⟩ | ⟨left, -, he⟩⟩ <;> rw [he]

theorem tasks_deliver (w : Wall) (d : Delivery) :
    (w.deliver d).tasks = (w.setOff d.listener).map .perform := by
  rw [setOff]
  rcases w.deliver_cases d with ⟨he, hl⟩ | ⟨l, hl, ⟨hleft, he⟩ | ⟨left, hleft, he⟩⟩ <;> rw [he, hl]
  · rfl
  · simp [hleft]
  · simp [hleft]

/-- To tell a listener something uses up one of its invocations, and nothing else changes. -/
theorem map_listeners_deliver {α : Type} {f : Listener → α}
    (hf : ∀ (l : Listener) (left : Nat), f { l with left } = f l) (w : Wall) (d : Delivery) :
    (w.deliver d).wall.listeners.map f = w.listeners.map f := by
  rcases w.deliver_cases d with ⟨he, -⟩ | ⟨l, hl, ⟨-, he⟩ | ⟨left, -, he⟩⟩ <;> rw [he]
  obtain ⟨hlt, rfl⟩ := List.getElem?_eq_some_iff.1 hl
  have hlt' : d.listener < (w.listeners.map f).length := by simpa using hlt
  calc (w.listeners.set d.listener { w.listeners[d.listener] with left }).map f
    _ = (w.listeners.map f).set d.listener (w.listeners.map f)[d.listener] := by
      rw [List.map_set, hf, List.getElem_map]
    _ = w.listeners.map f := List.set_getElem_self hlt'

theorem scripts_deliver (w : Wall) (d : Delivery) : (w.deliver d).wall.scripts = w.scripts :=
  map_listeners_deliver (fun _ _ => rfl) w d

theorem Passive.tasks_deliver (h : w.Passive) (d : Delivery) : (w.deliver d).tasks = [] := by
  rcases w.deliver_cases d with ⟨he, -⟩ | ⟨l, hl, ⟨-, he⟩ | ⟨left, -, he⟩⟩ <;> rw [he]
  rw [h l (List.mem_of_getElem? hl)]
  rfl

end Wall

namespace Run

variable {r : Run}

/-- To tell a passive listener something is to tell it. -/
theorem after_tell (h : r.wall.Passive) (d : Option Delivery) :
    r.after (d.toList.map .deliver) =
      { r.doing [] with
        wall := (r.wall.tell d).1
        events := r.events ++ (r.wall.tell d).2 } := by
  cases d with
  | none => simp [after_nil, doing, Wall.tell]
  | some d =>
    have hd : r.after [.deliver d] = r.incur (r.wall.deliver d) :=
      after_eq_of_tasks (by simp) rfl (h.tasks_deliver d)
    show r.after [.deliver d] = _
    rw [hd]
    simp [incur, doing, Wall.tell, h.tasks_deliver d]

/-- The end of a call on a controller that the host holds. -/
theorem after_leave (h : r.wall.held = true) :
    r.after [.leave] =
      { r.doing [] with wall := { r.wall with delivering := r.wall.delivering - 1 } } := by
  have hsettle : { r.wall with delivering := r.wall.delivering - 1 }.settle =
      { r.wall with delivering := r.wall.delivering - 1 } := Wall.settle_of_held h
  rw [after_eq_of_tasks (by simp) rfl rfl]
  simp [incur, doing, Wall.exec, hsettle]

end Run

namespace Wall

variable {w v : Wall}

theorem held_tell (w : Wall) (d : Option Delivery) : (w.tell d).1.held = w.held := by
  cases d with
  | none => rfl
  | some d => exact w.held_deliver d

/-- An operation that calls the controller, which has at most one notice for a passive
    listener. -/
theorem perform_of_begin {op : Op} {d : Option Delivery} (hh : v.held = true) (hp : v.Passive)
    (hb : w.begin 0 op = { wall := v, tasks := d.toList.map .deliver ++ [.leave] }) :
    (w.perform op).1 = { (v.tell d).1 with delivering := (v.tell d).1.delivering - 1 } ∧
      (w.perform op).2.events = (v.tell d).2 := by
  have hbegin : w.resting.begin op =
      { wall := v, tasks := d.toList.map .deliver ++ [.leave] } := by
    show w.resting.incur (w.begin 0 op) = _
    rw [hb]
    rfl
  have hcall : w.resting.call op =
      { wall := { (v.tell d).1 with delivering := (v.tell d).1.delivering - 1 }
        events := (v.tell d).2 } := by
    rw [Run.call, hbegin, Run.after_append, Run.after_tell hp, Run.after_leave]
    · rfl
    · exact (v.held_tell d).trans hh
  have hrun : w.runOf op = w.resting.call op := runOf_eq_call (by rw [hcall])
  rw [perform, hrun, hcall]
  exact ⟨rfl, rfl⟩

end Wall

end VideoWall
