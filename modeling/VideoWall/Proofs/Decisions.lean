import VideoWall.Proofs.Chronicle
import VideoWall.Proofs.Tuning

/-! What each step makes of the controller, and whom it tells what.

    A task makes one demand on the controller or none: `Wall.demand?`. `Wall.decides_exec` says that
    nothing else becomes of the controller while it lasts, that the notices it decides on are the
    first things left to do, and that a step tells nobody anything but the notice that it delivers.
    Every listener that the controller knows is there, and so is whoever a notice is on its way to;
    so every step of whatever a new wall comes to decides like this: `Wall.Brings.deciding`. -/

namespace VideoWall

/-! ### Deliveries -/

/-- The delivery that an event was. -/
def Event.delivery? : Event → Option Delivery
  | .told listener _ display notice => some ⟨listener, display, notice⟩
  | _ => none

/-- The delivery that a task is. -/
def Task.delivery? : Task → Option Delivery
  | .deliver d => some d
  | _ => none

/-- The deliveries that were made, in order. -/
def Event.deliveries (es : List Event) : List Delivery := es.filterMap Event.delivery?

/-- The deliveries that are about to be made, in order. -/
def Task.deliveries (ts : List Task) : List Delivery := ts.filterMap Task.delivery?

theorem Event.deliveries_append (es fs : List Event) :
    deliveries (es ++ fs) = deliveries es ++ deliveries fs := List.filterMap_append

theorem Task.deliveries_append (ts us : List Task) :
    deliveries (ts ++ us) = deliveries ts ++ deliveries us := List.filterMap_append

theorem Event.deliveries_eq_nil {es : List Event} (h : ∀ e ∈ es, e.delivery? = none) :
    deliveries es = [] := List.filterMap_eq_nil_iff.2 h

theorem Task.deliveries_eq_nil {ts : List Task} (h : ∀ t ∈ ts, t.delivery? = none) :
    deliveries ts = [] := List.filterMap_eq_nil_iff.2 h

theorem Task.deliveries_map_deliver (ds : List Delivery) : deliveries (ds.map .deliver) = ds := by
  rw [deliveries, List.filterMap_map]
  exact List.filterMap_some

theorem Event.deliveries_grouped (es : List Event) : deliveries (grouped es) = deliveries es :=
  filterMap_grouped_of_call (fun _ _ => rfl) es

/-- The same when only the last events are grouped. -/
theorem Event.deliveries_take_grouped (mark : Nat) (es : List Event) :
    deliveries (es.take mark ++ grouped (es.drop mark)) = deliveries es := by
  rw [deliveries_append, deliveries_grouped, ← deliveries_append, List.take_append_drop]

theorem Task.deliveries_cons (t : Task) (ts : List Task) :
    deliveries (t :: ts) = t.delivery?.toList ++ deliveries ts := by
  rw [deliveries, List.filterMap_cons]
  cases t.delivery? <;> rfl

theorem Task.deliveries_concat_report (ts : List Task) (op : Op) (r : Reply) :
    deliveries (ts ++ [.report op r]) = deliveries ts := by
  rw [deliveries_append]
  exact List.append_nil _

theorem Task.deliveries_map_poll (tiles : List Nat) : deliveries (tiles.map .poll) = [] :=
  deliveries_eq_nil (List.forall_mem_map.2 fun _ _ => rfl)

/-! ### Demands -/

namespace Controller

/-- The controller once a fully powered wall has been matched with the connected outputs, given by
    their refreshes, if a hotplug has come in. -/
def frame (c : Controller) (refreshes : List (Nat × Int)) : Controller :=
  if c.power.isOn && c.stale then
    { c with
      stale := false
      mode := { c.mode with preferred := (preferredOutput refreshes).getD c.mode.preferred } }
  else c

end Controller

/-- What can be demanded of a controller: a configuration that every output has switched to, with
    the mode that comes of it, a power mode, a vsync state, a listener, a frame on outputs whose
    refreshes depend on the configuration, or what to do about a vblank, a hotplug or a refresh
    request. -/
inductive Demand where
  | configure (config : Nat) (mode : CompositeMode)
  | power (mode : PowerMode)
  | control (enabled : Bool)
  | listen (channel : Channel) (listener : Nat) (display : DisplayId)
  | frame (refreshes : Nat → List (Nat × Int))
  | vblank (time : Int)
  | hotplug (outputs : Nat) (connected : Bool)
  | refresh

/-- What the controller becomes, and what it has to tell. -/
def Demand.meet : Demand → Controller → Controller × List Delivery
  | .configure config mode, c => ({ c with activeConfig := config, mode }, [])
  | .power mode, c => ({ c with power := mode }, [])
  | .control enabled, c => (c.control enabled, [])
  | .listen channel listener display, c => (c.listen channel listener display, [])
  | .frame refreshes, c => (c.frame (refreshes c.activeConfig), [])
  | .vblank time, c => c.vblank time
  | .hotplug outputs connected, c => c.hotplug outputs connected
  | .refresh, c => (c, c.refresh)

namespace Wall

/-- The connected outputs, each with its refresh at a configuration. -/
def refreshes (w : Wall) (config : Nat) : List (Nat × Int) :=
  w.tiles.zipIdx.filterMap fun (t, i) =>
    if t.output.connected then some (i, t.output.reportOrZero config .refreshRate) else none

/-- What a task demands of the controller, if it gets through to it. -/
def demand? (w : Wall) : Task → Option Demand
  | .perform (.setActiveConfig config) =>
    if w.held then
      some <| .configure config <| .ofOutputs <|
        w.outputs.map fun o => (o.setActiveConfig config).mode config
    else none
  | .perform (.setPowerMode mode) => if w.held then some (.power mode) else none
  | .perform (.control enabled) => if w.held then some (.control enabled) else none
  | .perform (.vsyncUpdate time) => if w.held then some (.vblank time) else none
  | .perform (.hotplugUpdate connected) =>
    if w.held then some (.hotplug w.connectedCount connected) else none
  | .perform .refreshUpdate => if w.held then some .refresh else none
  | .perform (.listen channel display _ _ _) =>
    if w.held then some (.listen channel w.listeners.length display) else none
  | .perform (.present _ _) => if w.held then some (.frame w.refreshes) else none
  | .perform (.vblank i time force) =>
    if w.outputs[i]?.any fun o => o.onVsync.isSome && (o.forwarding || force) then
      some (.vblank time)
    else none
  | .perform (.plug i connected) =>
    let v := w.setOutput i fun o => { o with connected }
    if v.outputs[i]?.any (·.onHotplug.isSome) then some (.hotplug v.connectedCount connected)
    else none
  | .perform (.requestRefresh i) =>
    if w.outputs[i]?.any (·.onRefresh.isSome) then some .refresh else none
  | .item i (.flip f) =>
    ((w.outputs[i]?.bind (·.loop)).bind fun l => (l.flip f).2.2).map (.vblank ·.time)
  | _ => none

/-- All that comes to the controller without an operation is a vblank, through a loop. -/
theorem demand?_of_not_perform (w : Wall) {t : Task} (ht : ∀ op, t ≠ .perform op) :
    w.demand? t = none ∨ ∃ time, w.demand? t = some (.vblank time) := by
  cases t with
  | perform op => exact absurd rfl (ht op)
  | item i x =>
    cases x with
    | remark r => exact .inl rfl
    | flip f =>
      rw [demand?]
      cases (w.outputs[i]?.bind (·.loop)).bind fun l => (l.flip f).2.2 with
      | none => exact .inl rfl
      | some call => exact .inr ⟨call.time, rfl⟩
  | _ => exact .inl rfl

/-- Whatever is demanded but a vblank, it is demanded by an operation. -/
theorem exists_perform_of_demand? {w : Wall} {t : Task} {demand : Demand}
    (h : w.demand? t = some demand) (hd : ∀ time, demand ≠ .vblank time) :
    ∃ op, t = .perform op := by
  by_contra ht
  rcases w.demand?_of_not_perform fun op hop => ht ⟨op, hop⟩ with hnone | ⟨time, hv⟩
  · cases h.symm.trans hnone
  · exact hd time (Option.some.inj (h.symm.trans hv))

/-- What the controller has to tell about a demand. -/
def due (w : Wall) (demand : Option Demand) : List Delivery :=
  demand.elim [] fun d => w.controller.elim [] fun c => (d.meet c).2

end Wall

/-- A step that makes a demand on the controller, and the delivery `told`. -/
structure Effect.Decides (w : Wall) (told : Option Delivery) (demand : Option Demand) (e : Effect) :
    Prop where
  controller : ∀ c', e.wall.controller = some c' →
    ∃ c, w.controller = some c ∧ c' = demand.elim c fun d => (d.meet c).1
  tasks : ∃ rest, e.tasks = (w.due demand).map .deliver ++ rest ∧ Task.deliveries rest = []
  events : Event.deliveries e.events = told.toList

namespace Wall

variable {w v : Wall} {e : Effect} {demand : Option Demand}

/-- A step that demands nothing; the controller may go. -/
theorem decides_none (hc : e.wall.controller = w.controller ∨ e.wall.controller = none)
    (ht : ∀ t ∈ e.tasks, t.delivery? = none) (he : ∀ x ∈ e.events, x.delivery? = none) :
    e.Decides w none none where
  controller := by
    intro c' hc'
    rcases hc with hc | hc
    · exact ⟨c', hc ▸ hc', rfl⟩
    · rw [hc] at hc'
      cases hc'
  tasks := ⟨e.tasks, rfl, Task.deliveries_eq_nil ht⟩
  events := Event.deliveries_eq_nil he

/-- A step without tasks and events that demands nothing. -/
theorem decides_none_of_nil (hc : e.wall.controller = w.controller ∨ e.wall.controller = none)
    (ht : e.tasks = []) (he : e.events = []) : e.Decides w none none :=
  decides_none hc (by rw [ht]; exact List.forall_mem_nil _)
    (by rw [he]; exact List.forall_mem_nil _)

/-- A demand that is met without telling anybody. -/
theorem decides_some {c c' : Controller} (hc : w.controller = some c) {d : Demand}
    (hd : d.meet c = (c', [])) (hc' : e.wall.controller = some c')
    (ht : ∀ t ∈ e.tasks, t.delivery? = none) (he : ∀ x ∈ e.events, x.delivery? = none) :
    e.Decides w none (some d) where
  controller := by
    intro c'' hc''
    obtain rfl := Option.some.inj (hc'.symm.trans hc'')
    exact ⟨c, hc, (congrArg Prod.fst hd).symm⟩
  tasks := by
    have hdue : w.due (some d) = [] := by
      rw [due, hc]
      exact congrArg Prod.snd hd
    exact ⟨e.tasks, by rw [hdue]; rfl, Task.deliveries_eq_nil ht⟩
  events := Event.deliveries_eq_nil he

/-- A step that comes after a change which leaves the controller alone. -/
theorem decides_congr {told : Option Delivery} (h : e.Decides v told demand)
    (hc : v.controller = w.controller) : e.Decides w told demand where
  controller := hc ▸ h.controller
  tasks := by
    rw [due, ← hc]
    exact h.tasks
  events := h.events

theorem decides_enter (w : Wall) (d : Demand) : (w.enter d.meet).Decides w none (some d) := by
  rcases w.enter_cases d.meet with ⟨hc, he⟩ | ⟨c, hc, he⟩ <;> rw [he]
  · refine ⟨fun c' hc' => ?_, ⟨[], ?_, rfl⟩, rfl⟩
    · cases hc.symm.trans hc'
    · rw [due, hc]
      rfl
  · refine ⟨?_, ⟨[.leave], ?_, rfl⟩, rfl⟩
    · intro c' hc'
      exact ⟨c, hc, (Option.some.inj hc').symm⟩
    · rw [due, hc]
      rfl

theorem decides_through (w : Wall) (registered : Bool) (d : Demand) :
    (w.through registered d.meet).Decides w none (if registered then some d else none) := by
  cases registered with
  | true => exact w.decides_enter d
  | false => exact decides_none_of_nil (.inl rfl) rfl rfl

/-- A call by the holder that makes a demand. -/
theorem decides_asHolder {f : Controller → Effect} {d : Demand}
    (h : ∀ c, w.controller = some c → (f c).Decides w none (some d)) :
    (w.asHolder f).Decides w none (if w.held then some d else none) := by
  rcases w.asHolder_cases f with ⟨c, hh, hc, he⟩ | ⟨hgone, he⟩
  · rw [he, hh, if_pos rfl]
    exact h c hc
  · rw [he]
    rcases hgone with hh | hc
    · rw [hh]
      exact decides_none_of_nil (.inl rfl) rfl rfl
    · refine ⟨fun c' hc' => ?_, ⟨[], ?_, rfl⟩, rfl⟩
      · cases hc.symm.trans hc'
      · rw [due, hc]
        cases w.held <;> rfl

theorem controller_settle (w : Wall) :
    w.settle.controller = w.controller ∨ w.settle.controller = none := by
  rw [settle]
  split
  · exact .inl rfl
  · exact .inr rfl

/-! ### Steps -/

theorem delivery?_of_mem_callAll {call : OutputCall} {x : Event} (hx : x ∈ w.callAll call) :
    x.delivery? = none := by
  obtain ⟨i, -, rfl⟩ := List.mem_map.1 hx
  rfl

theorem decides_present {c : Controller} (hc : w.controller = some c) (layers : List Layer)
    (upload : Bool) (mark : Nat) :
    (w.present c layers upload mark).Decides w none (some (.frame w.refreshes)) := by
  have hframe : c.power.isOn = true →
      (w.reconcile c).controller = some (c.frame (w.refreshes c.activeConfig)) := by
    intro hp
    rw [reconcile, Controller.frame, hp, Bool.true_and]
    split
    · rfl
    · exact hc
  rw [present]
  split
  · next hp =>
    refine decides_some hc rfl (hframe hp) (fun t ht => ?_) (List.forall_mem_nil _)
    rcases List.mem_append.1 ht with ht | ht
    · rcases List.mem_append.1 ht with ht | ht
      · obtain ⟨i, hi⟩ := exists_tile_of_mem_schedule ht
        cases t <;> first | rfl | cases hi
      · split at ht
        · cases ht
        · rw [List.mem_singleton.1 ht]
          rfl
    · rw [List.mem_singleton.1 ht]
      rfl
  · next hp =>
    have hc' : w.controller = some (c.frame (w.refreshes c.activeConfig)) := by
      rw [hc, Controller.frame, Bool.eq_false_iff.2 hp]
      rfl
    exact decides_some hc rfl hc' (List.forall_mem_nil _) (List.forall_mem_nil _)

theorem decides_begin (w : Wall) (mark : Nat) (op : Op) :
    (w.begin mark op).Decides w none (w.demand? (.perform op)) := by
  cases op with
  | setActiveConfig config =>
    refine decides_asHolder fun c hc => decides_some hc rfl ?_ (List.forall_mem_nil _)
      fun x hx => delivery?_of_mem_callAll hx
    simp [setActiveConfig, setOutputs, outputs, Function.comp_def]
  | setPowerMode mode =>
    exact decides_asHolder fun c hc => decides_some hc rfl rfl (List.forall_mem_nil _)
      fun x hx => delivery?_of_mem_callAll hx
  | control enabled =>
    refine decides_asHolder fun c hc => ?_
    rw [control]
    split
    · next he =>
      exact decides_some hc rfl (by rw [hc, Controller.control, if_pos he]) (List.forall_mem_nil _)
        (List.forall_mem_nil _)
    · exact decides_some hc rfl rfl (List.forall_mem_nil _)
        fun x hx => delivery?_of_mem_callAll hx
  | vsyncUpdate time => exact decides_asHolder fun _ _ => w.decides_enter (.vblank time)
  | hotplugUpdate connected => exact decides_asHolder fun _ _ => w.decides_enter (.hotplug ..)
  | refreshUpdate => exact decides_asHolder fun _ _ => w.decides_enter .refresh
  | listen channel display tag script limit =>
    refine decides_asHolder fun c hc => decides_some hc rfl rfl (List.forall_mem_nil _) ?_
    intro x hx
    obtain ⟨i, hi, rfl⟩ := List.mem_mapIdx.1 hx
    rfl
  | present layers upload =>
    exact decides_asHolder fun c hc => decides_present hc layers upload mark
  | ask question =>
    rw [begin, asHolder]
    split <;> exact decides_none_of_nil (.inl rfl) rfl rfl
  | vblank i time force => exact w.decides_through _ (.vblank time)
  | plug i connected =>
    exact decides_congr
      ((w.setOutput i fun o => { o with connected }).decides_through _ (.hotplug ..)) rfl
  | requestRefresh i => exact w.decides_through _ .refresh
  | change i change onPresent => cases onPresent <;> exact decides_none_of_nil (.inl rfl) rfl rfl
  | feed i readings =>
    exact decides_none (.inl rfl) (List.forall_mem_map.2 fun _ _ => rfl) (List.forall_mem_nil _)
  | drop => exact decides_none_of_nil (controller_settle _) rfl rfl

/-- A delivery to a listener who is there. -/
theorem decides_deliver {d : Delivery} (hl : d.listener < w.listeners.length) :
    (w.deliver d).Decides w (some d) none := by
  have hc : (w.deliver d).wall.controller = w.controller := by
    obtain ⟨ls, hw⟩ := w.exists_wall_deliver d
    rw [hw]
  have ht : ∀ t ∈ (w.deliver d).tasks, t.delivery? = none := by
    rw [tasks_deliver]
    exact List.forall_mem_map.2 fun _ _ => rfl
  have hs := decides_none (e := { w.deliver d with events := [] }) (.inl hc) ht
    (List.forall_mem_nil _)
  refine ⟨hs.controller, hs.tasks, ?_⟩
  rw [deliver, List.getElem?_eq_getElem hl]
  dsimp only
  split <;> rfl

theorem decides_item (w : Wall) (i : Nat) (x : Vblank.Item) :
    (w.item i x).Decides w none (w.demand? (.item i x)) := by
  rcases w.item_cases i x with ⟨log, he, hnone⟩ | ⟨l, f, log, hl, rfl, hcall⟩
  · have hdemand : w.demand? (.item i x) = none := by
      cases x with
      | remark r => rfl
      | flip f =>
        have hl := hnone.resolve_right (by simp [Vblank.Item.isFlip])
        rw [demand?, hl]
        rfl
    rw [he, hdemand]
    exact decides_none_of_nil (.inl rfl) rfl rfl
  · rcases hcall with ⟨hcall, he⟩ | ⟨call, hcall, he⟩ <;>
      rw [he, demand?, hl, Option.bind_some, hcall]
    · exact decides_none_of_nil (.inl rfl) rfl rfl
    · have h := decides_congr (w := w) ((w.setOutput i (·.mapLoop fun _ =>
        (l.flip f).1)).decides_enter (.vblank call.time)) rfl
      exact ⟨h.controller, h.tasks, h.events⟩

theorem decides_work (w : Wall) (i : Nat) : (w.work i).Decides w none none := by
  rcases w.work_cases i with ⟨he, -⟩ | ⟨_, _, _, _, -, -, -, script, _, _, he, -⟩ <;> rw [he]
  · exact decides_none_of_nil (.inl rfl) rfl rfl
  · refine decides_none (.inl rfl) (fun u hu => ?_) fun x hx => ?_
    · rcases List.mem_append.1 hu with hu | hu
      · obtain ⟨op, -, rfl⟩ := List.mem_map.1 hu
        rfl
      · rw [List.mem_singleton.1 hu]
        rfl
    · obtain ⟨call, -, rfl⟩ := Option.map_eq_some_iff.1 (Option.mem_toList.1 hx)
      rfl

theorem decides_exec (mark : Nat) {t : Task}
    (hl : ∀ d, t.delivery? = some d → d.listener < w.listeners.length) :
    (w.exec mark t).Decides w t.delivery? (w.demand? t) := by
  cases t with
  | perform op =>
    have hb := w.decides_begin mark op
    obtain ⟨rest, hrest, hnil⟩ := hb.tasks
    refine ⟨hb.controller, ⟨rest ++ [.report op (w.begin mark op).reply], ?_, ?_⟩, hb.events⟩
    · rw [exec]
      dsimp only
      rw [hrest, List.append_assoc]
    · rw [Task.deliveries_append, hnil]
      rfl
  | report op reply =>
    exact decides_none (.inl rfl) (List.forall_mem_nil _) (List.forall_mem_singleton.2 rfl)
  | deliver d => exact decides_deliver (hl d rfl)
  | leave | endFrame => exact decides_none_of_nil (controller_settle _) rfl rfl
  | dispatch i job =>
    rw [exec]
    rcases w.dispatch_cases i job with ⟨log, he, -⟩ | ⟨k, -, -, he⟩ <;> rw [he] <;>
      exact decides_none_of_nil (.inl rfl) rfl rfl
  | work i => exact w.decides_work i
  | finish i upload s => exact decides_none_of_nil (.inl rfl) rfl rfl
  | await i => exact decides_none_of_nil (.inl rfl) rfl rfl
  | group m => exact decides_none_of_nil (.inl rfl) rfl rfl
  | arrive i r =>
    rw [exec]
    rcases w.arrive_cases i r with ⟨he, -⟩ | he <;> rw [he]
    · exact decides_none_of_nil (.inl rfl) rfl rfl
    · exact decides_none (.inl rfl) (List.forall_mem_singleton.2 rfl) (List.forall_mem_nil _)
  | poll i =>
    rw [exec]
    rcases w.poll_cases i with ⟨he, -⟩ | ⟨l, r, m, -, -, he⟩ <;> rw [he]
    · exact decides_none_of_nil (.inl rfl) rfl rfl
    · exact decides_none (.inl rfl) (Task.forall_iteration (P := fun t => t.delivery? = none)
        (fun _ => rfl) rfl rfl r.items) (List.forall_mem_nil _)
  | item i x => exact w.decides_item i x
  | arm i =>
    rw [exec]
    rcases w.arm_cases i with ⟨he, -⟩ | ⟨l, -, he⟩ <;> rw [he] <;>
      exact decides_none_of_nil (.inl rfl) rfl rfl

end Wall

/-! ### Listeners -/

namespace Controller

variable {c : Controller}

/-- The listener for a notice. -/
def listener? (c : Controller) : Notice → Option Nat
  | .vsync _ => c.vsyncListener
  | .refresh => c.refreshListener
  | .hotplug _ => c.hotplugListener

/-- The delivery is for the listener of its notice, under the display of the controller. -/
structure Sends (c : Controller) (d : Delivery) : Prop where
  listener_eq : c.listener? d.notice = some d.listener
  display_eq : d.display = c.display

/-- Every listener that the controller knows is one of the first `listeners`. -/
def Knows (listeners : Nat) (c : Controller) : Prop :=
  ∀ notice k, c.listener? notice = some k → k < listeners

theorem sends_of_mem_vblank {time : Int} {d : Delivery} (hd : d ∈ (c.vblank time).2) :
    c.Sends d := by
  rw [vblank] at hd
  split at hd
  · next listener _ hl =>
    obtain ⟨t, -, rfl⟩ := List.mem_map.1 hd
    exact ⟨hl, rfl⟩
  · cases hd

theorem sends_of_mem_refresh {d : Delivery} (hd : d ∈ c.refresh) : c.Sends d := by
  rw [refresh] at hd
  split at hd
  · obtain ⟨listener, hl, rfl⟩ := List.mem_map.1 hd
    exact ⟨Option.mem_toList.1 hl, rfl⟩
  · cases hd

/-- A hotplug is told as what it is, after the cycle that it may cut short. -/
theorem mem_hotplug {outputs : Nat} {connected : Bool} {d : Delivery}
    (hd : d ∈ (c.hotplug outputs connected).2) :
    (∃ listener time, c.vsyncListener = some listener ∧ d = ⟨listener, c.display, .vsync time⟩) ∨
      ∃ listener, c.hotplugListener = some listener ∧
        d = ⟨listener, c.display, .hotplug connected⟩ := by
  rw [hotplug] at hd
  generalize c.cycle.retarget outputs (c.vsyncEnabled && c.vsyncListener.isSome) = r at hd
  dsimp only at hd
  split at hd
  · next listener _ hl =>
    rcases List.mem_append.1 hd with hd | hd
    · split at hd
      · next listener time hv _ => exact .inl ⟨listener, time, hv, List.mem_singleton.1 hd⟩
      · cases hd
    · exact .inr ⟨listener, hl, List.mem_singleton.1 hd⟩
  · split at hd
    · next listener time hv _ => exact .inl ⟨listener, time, hv, List.mem_singleton.1 hd⟩
    · cases hd

theorem sends_of_mem_hotplug {outputs : Nat} {connected : Bool} {d : Delivery}
    (hd : d ∈ (c.hotplug outputs connected).2) : c.Sends d := by
  rcases mem_hotplug hd with ⟨listener, time, hl, rfl⟩ | ⟨listener, hl, rfl⟩
  · exact ⟨hl, rfl⟩
  · exact ⟨hl, rfl⟩

theorem listener?_vblank (time : Int) : (c.vblank time).1.listener? = c.listener? := by
  rw [vblank]
  split <;> rfl

theorem listener?_hotplug (outputs : Nat) (connected : Bool) :
    (c.hotplug outputs connected).1.listener? = c.listener? := by
  rw [hotplug]
  generalize c.cycle.retarget outputs (c.vsyncEnabled && c.vsyncListener.isSome) = r
  dsimp only
  split <;> rfl

theorem listener?_control (enabled : Bool) : (c.control enabled).listener? = c.listener? := by
  rw [control]
  split <;> rfl

/-- A new listener takes the place of the one for its own kind of notice. -/
theorem listener?_listen {channel : Channel} {listener : Nat} {display : DisplayId}
    {notice : Notice} {k : Nat}
    (h : (c.listen channel listener display).listener? notice = some k) :
    c.listener? notice = some k ∨ k = listener := by
  cases channel <;> cases notice <;>
    first | exact .inl h | exact .inr (Option.some.inj h).symm

theorem listener?_frame (refreshes : List (Nat × Int)) :
    (c.frame refreshes).listener? = c.listener? := by
  rw [frame]
  split <;> rfl

end Controller

namespace Demand

variable {c : Controller}

/-- Whatever is demanded, the controller only tells its own listeners. -/
theorem sends_of_mem_meet {demand : Demand} {d : Delivery} (hd : d ∈ (demand.meet c).2) :
    c.Sends d := by
  cases demand with
  | configure | power | control | listen | frame => cases hd
  | vblank time => exact Controller.sends_of_mem_vblank hd
  | hotplug outputs connected => exact Controller.sends_of_mem_hotplug hd
  | refresh => exact Controller.sends_of_mem_refresh hd

/-- A listener that the controller knows is not new, unless it was demanded to listen. -/
theorem listener?_meet {demand : Demand} {notice : Notice} {k : Nat}
    (h : (demand.meet c).1.listener? notice = some k) :
    c.listener? notice = some k ∨ ∃ channel display, demand = .listen channel k display := by
  cases demand with
  | listen channel listener display =>
    rcases Controller.listener?_listen h with h | rfl
    · exact .inl h
    · exact .inr ⟨channel, display, rfl⟩
  | configure | power | refresh => exact .inl h
  | control enabled =>
    rw [meet, Controller.listener?_control] at h
    exact .inl h
  | frame refreshes =>
    rw [meet, Controller.listener?_frame] at h
    exact .inl h
  | vblank time =>
    rw [meet, Controller.listener?_vblank] at h
    exact .inl h
  | hotplug outputs connected =>
    rw [meet, Controller.listener?_hotplug] at h
    exact .inl h

end Demand

/-- Every listener that the controller knows is there, and so is everyone whom the tasks tell
    something. -/
structure Wall.Addresses (w : Wall) (ts : List Task) : Prop where
  known : ∀ c, w.controller = some c → c.Knows w.listeners.length
  there : ∀ d ∈ Task.deliveries ts, d.listener < w.listeners.length

namespace Wall

variable {w : Wall} {t : Task} {ts : List Task}

/-- No listener ever goes. -/
theorem length_listeners_exec (w : Wall) (mark : Nat) (t : Task) :
    w.listeners.length ≤ (w.exec mark t).wall.listeners.length := by
  by_cases ht : ∃ op, t = .perform op ∧ op.isTuning = true
  · obtain ⟨op, rfl, hop⟩ := ht
    have hheld : ∀ f : Controller → Effect,
        (∀ c, w.listeners.length ≤ (f c).wall.listeners.length) →
          w.listeners.length ≤ (w.asHolder f).wall.listeners.length := by
      intro f hf
      rcases w.asHolder_cases f with ⟨c, -, -, he⟩ | ⟨-, he⟩
      · exact he ▸ hf c
      · exact he ▸ Nat.le_refl _
    cases op with
    | setPowerMode mode => exact hheld _ fun c => Nat.le_refl _
    | control enabled =>
      refine hheld _ fun c => ?_
      rw [control]
      split <;> exact Nat.le_refl _
    | listen channel display tag script limit =>
      refine hheld _ fun c => ?_
      simp [listen, addListener, setOutputs]
    | _ => cases hop
  · refine Nat.le_of_eq (tunes_exec mark fun op hop => ?_).listeners_eq.symm
    exact Bool.eq_false_iff.2 fun h => ht ⟨op, hop, h⟩

/-- Only the holder demands that somebody listens. -/
theorem eq_listen_of_demand? {channel : Channel} {k : Nat} {display : DisplayId}
    (h : w.demand? t = some (.listen channel k display)) :
    ∃ tag script limit, t = .perform (.listen channel display tag script limit) ∧
      w.held = true ∧ k = w.listeners.length := by
  obtain ⟨op, rfl⟩ := exists_perform_of_demand? h nofun
  cases op with
  | listen channel' display' tag script limit =>
    obtain ⟨hh, he⟩ := Option.ite_none_right_eq_some.1 h
    cases he
    exact ⟨tag, script, limit, rfl, hh, rfl⟩
  | _ => simp [demand?] at h

/-- Whom a demand makes listen is there from then on. -/
theorem lt_length_listeners_exec {c : Controller} (hc : w.controller = some c) {channel : Channel}
    {k : Nat} {display : DisplayId} (h : w.demand? t = some (.listen channel k display))
    (mark : Nat) : k < (w.exec mark t).wall.listeners.length := by
  obtain ⟨tag, script, limit, rfl, hh, rfl⟩ := eq_listen_of_demand? h
  simp [exec, begin, asHolder, hh, hc, listen, addListener, setOutputs]

theorem Addresses.decides (h : w.Addresses (t :: ts)) (mark : Nat) :
    (w.exec mark t).Decides w t.delivery? (w.demand? t) :=
  decides_exec mark fun d hd => h.there d (List.mem_filterMap.2 ⟨t, List.mem_cons_self, hd⟩)

theorem Addresses.exec (h : w.Addresses (t :: ts)) (mark : Nat) :
    (w.exec mark t).wall.Addresses ((w.exec mark t).tasks ++ ts) := by
  have hd := h.decides mark
  have hlen := w.length_listeners_exec mark t
  constructor
  · intro c' hc' notice k hk
    obtain ⟨c, hc, rfl⟩ := hd.controller c' hc'
    cases hdem : w.demand? t with
    | none =>
      rw [hdem] at hk
      exact Nat.lt_of_lt_of_le (h.known c hc notice k hk) hlen
    | some demand =>
      rw [hdem] at hk
      rcases Demand.listener?_meet hk with hk | ⟨channel, display, rfl⟩
      · exact Nat.lt_of_lt_of_le (h.known c hc notice k hk) hlen
      · exact lt_length_listeners_exec hc hdem mark
  · intro d hmem
    refine Nat.lt_of_lt_of_le ?_ hlen
    obtain ⟨rest, hrest, hnil⟩ := hd.tasks
    rw [hrest, Task.deliveries_append, Task.deliveries_append, Task.deliveries_map_deliver, hnil,
      List.append_nil] at hmem
    rcases List.mem_append.1 hmem with hmem | hmem
    · rw [due] at hmem
      cases hdem : w.demand? t with
      | none =>
        rw [hdem] at hmem
        cases hmem
      | some demand =>
        cases hc : w.controller with
        | none =>
          rw [hdem, hc] at hmem
          cases hmem
        | some c =>
          rw [hdem, hc] at hmem
          exact h.known c hc _ _ (Demand.sends_of_mem_meet hmem).listener_eq
    · refine h.there d ?_
      rw [Task.deliveries_cons]
      exact List.mem_append_right _ hmem

/-- What is left to do may change as long as nobody else is told anything. -/
theorem Addresses.of_subset (h : w.Addresses ts) {us : List Task}
    (hus : ∀ d ∈ Task.deliveries us, d ∈ Task.deliveries ts) : w.Addresses us :=
  ⟨h.known, fun d hd => h.there d (hus d hd)⟩

/-- What holds at first and is kept by every step that decides as it should holds of whatever a new
    wall comes to; and whoever has to be told something is there. -/
theorem Brings.deciding {σ : Type} {note : Wall → Task → σ → σ} {outputs : List Output}
    {policy : Policy} {notes : σ} {n : Noted σ}
    {P : Wall → List Task → List Event → σ → Prop}
    (start : P (Wall.create outputs policy) [] [] notes)
    (host : ∀ v op es s, P v [] es s → P v [.perform op] es s)
    (reply : ∀ v ts op r es s, P v (ts ++ [.report op r]) es s → P v ts es s)
    (turn : ∀ v (tiles : List Nat) es s, P v [] es s → P v (tiles.map .poll) es s)
    (group : ∀ v mark ts es s, P v (.group mark :: ts) es s →
      P v ts (es.take mark ++ Event.grouped (es.drop mark)) (note v (.group mark) s))
    (exec : ∀ v t ts es s, (∀ mark, t ≠ .group mark) →
      (v.exec es.length t).Decides v t.delivery? (v.demand? t) → P v (t :: ts) es s →
      P (v.exec es.length t).wall ((v.exec es.length t).tasks ++ ts)
        (es ++ (v.exec es.length t).events) (note v t s))
    (h : (Wall.create outputs policy).Brings note notes n) :
    P n.run.wall n.run.tasks n.run.events n.notes ∧ n.run.wall.Addresses n.run.tasks := by
  refine h.invariant (P := fun w ts es s => P w ts es s ∧ w.Addresses ts) ?_ ?_ ?_ ?_ ?_ ?_
  · refine ⟨start, ?_, fun d hd => by cases hd⟩
    rintro c ⟨⟩ notice k hk
    cases notice <;> cases hk
  · exact fun w op es s ⟨hp, hw⟩ => ⟨host w op es s hp, hw.of_subset fun d hd => hd⟩
  · intro w ts op r es s ⟨hp, hw⟩
    refine ⟨reply w ts op r es s hp, hw.of_subset fun d hd => ?_⟩
    rw [Task.deliveries_concat_report]
    exact hd
  · intro w tiles es s ⟨hp, hw⟩
    refine ⟨turn w tiles es s hp, hw.of_subset fun d hd => ?_⟩
    rw [Task.deliveries_map_poll] at hd
    cases hd
  · exact fun w mark ts es s ⟨hp, hw⟩ =>
      ⟨group w mark ts es s hp, hw.of_subset fun d hd => hd⟩
  · exact fun w t ts es s ht ⟨hp, hw⟩ =>
      ⟨exec w t ts es s ht (hw.decides _) hp, hw.exec _⟩

end Wall

end VideoWall
