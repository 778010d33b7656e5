import VideoWall.Proofs.Ledger
import VideoWall.Proofs.Ordinary
import VideoWall.Proofs.Passive
import VideoWall.Proofs.Staff

/-! What a step does to the vsync of a wall.

    A controller is tuned by its holder: its power mode, whether vsync is enabled, and who listens
    for it. Each loop is tuned through its output. No other step changes any of that:
    `Wall.sounds_exec`. A step may still act on the cycle of the controller, and at most once, as
    `Wall.act?` says: a vblank is a sample, a hotplug starts a cycle for another number of outputs.
    What the cycle yields is the first thing to be told after that. -/

namespace VideoWall

open Vsync (Act)

/-! ### What is told about vsync -/

/-- The time that a notice tells. -/
def Notice.vsync? : Notice → Option Int
  | .vsync time => some time
  | _ => none

/-- The time that an event tells. -/
def Event.vsync? : Event → Option Int
  | .told _ _ _ notice => notice.vsync?
  | _ => none

/-- The time that a task is about to tell. -/
def Task.vsync? : Task → Option Int
  | .deliver d => d.notice.vsync?
  | _ => none

/-- The times that were told, in order. -/
def Event.vsyncs (es : List Event) : List Int := es.filterMap Event.vsync?

/-- The times that are about to be told, in order. -/
def Task.vsyncs (ts : List Task) : List Int := ts.filterMap Task.vsync?

@[simp] theorem Event.vsyncs_append (es fs : List Event) :
    vsyncs (es ++ fs) = vsyncs es ++ vsyncs fs := List.filterMap_append

@[simp] theorem Task.vsyncs_append (ts us : List Task) :
    vsyncs (ts ++ us) = vsyncs ts ++ vsyncs us := List.filterMap_append

theorem Event.vsyncs_eq_nil {es : List Event} (h : ∀ e ∈ es, e.vsync? = none) : vsyncs es = [] :=
  List.filterMap_eq_nil_iff.2 h

theorem Task.vsyncs_eq_nil {ts : List Task} (h : ∀ t ∈ ts, t.vsync? = none) : vsyncs ts = [] :=
  List.filterMap_eq_nil_iff.2 h

/-- To note a reply in the end tells nobody. -/
@[simp] theorem Task.vsyncs_append_report (ts : List Task) (op : Op) (r : Reply) :
    vsyncs (ts ++ [Task.report op r]) = vsyncs ts := by
  simp [vsyncs, vsync?]

@[simp] theorem Task.vsyncs_tail_append_report (ts : List Task) (op : Op) (r : Reply) :
    vsyncs (ts ++ [Task.report op r]).tail = vsyncs ts.tail := by
  cases ts with
  | nil => rfl
  | cons t ts => exact vsyncs_append_report ts op r

theorem Event.vsyncs_grouped (es : List Event) : vsyncs (grouped es) = vsyncs es :=
  filterMap_grouped_of_call (fun _ _ => rfl) es

/-! ### Settings of loops -/

/-- A loop without what its readings change: what remains is whether it runs and forwards, and whom
    it calls under which name. -/
def Vblank.Loop.settings (l : Vblank.Loop Unit) : Vblank.Loop Unit :=
  { l with interval := {}, idle := none, device := {} }

/-- The pipe of a tile's output, and the settings of its loop. -/
def Tile.settings (t : Tile) : Nat × Option (Vblank.Loop Unit) :=
  (t.output.pipe, t.output.loop.map (·.settings))

/-- The settings of the loops, tile by tile. -/
def Wall.settings (w : Wall) : List (Nat × Option (Vblank.Loop Unit)) := w.tiles.map Tile.settings

namespace Output

@[simp] theorem pipe_mapLoop (o : Output) (f : Vblank.Loop Unit → Vblank.Loop Unit) :
    (o.mapLoop f).pipe = o.pipe := rfl

@[simp] theorem loop_mapLoop (o : Output) (f : Vblank.Loop Unit → Vblank.Loop Unit) :
    (o.mapLoop f).loop = o.loop.map f := rfl

@[simp] theorem pipe_release (o : Output) (f : Option Fence) : (o.release f).pipe = o.pipe := by
  cases f <;> rfl

@[simp] theorem loop_release (o : Output) (f : Option Fence) : (o.release f).loop = o.loop := by
  cases f <;> rfl

@[simp] theorem pipe_setActiveConfig (o : Output) (config : Nat) :
    (o.setActiveConfig config).pipe = o.pipe := by
  rw [setActiveConfig]
  split <;> rfl

@[simp] theorem loop_setActiveConfig (o : Output) (config : Nat) :
    (o.setActiveConfig config).loop = o.loop := by
  rw [setActiveConfig]
  split <;> rfl

@[simp] theorem pipe_present (o : Output) : o.present.1.pipe = o.pipe := by
  rw [present]
  split
  · rfl
  · split <;> rfl

@[simp] theorem loop_present (o : Output) : o.present.1.loop = o.loop := by
  rw [present]
  split
  · rfl
  · split <;> rfl

end Output

@[simp] theorem Worker.pipe_settle (k : Worker) (o : Output) (s : Submission) :
    (k.settle o s).2.pipe = o.pipe := by
  cases s <;> simp [settle]

@[simp] theorem Worker.loop_settle (k : Worker) (o : Output) (s : Submission) :
    (k.settle o s).2.loop = o.loop := by
  cases s <;> simp [settle]

namespace Tile

@[simp] theorem settings_retire (t : Tile) : t.retire.settings = t.settings := by
  rw [retire]
  split
  · rfl
  · simp [settings, Worker.retire]

@[simp] theorem settings_reconcile (t : Tile) (i : Nat) :
    (t.reconcile i).settings = t.settings := by
  rw [reconcile]
  split
  · rfl
  · exact t.settings_retire

@[simp] theorem settings_finish (t : Tile) (s : Submission) :
    (t.finish s).settings = t.settings := by
  unfold finish
  split <;> simp [settings]

end Tile

/-! ### Steps that tune nothing -/

/-- A vblank counts while vsync is enabled and somebody listens. -/
def Controller.counts (c : Controller) : Bool := c.vsyncEnabled && c.vsyncListener.isSome

/-- What the cycle yields when it is acted upon, if it is. -/
def Controller.yields? (c : Controller) (a : Option Act) : Option Int :=
  a.bind fun a => (c.cycle.act a).2

/-- The controller is tuned as before; its cycle is acted upon, or left as it is. -/
structure Controller.Tuned (a : Option Act) (c c' : Controller) : Prop where
  power_eq : c'.power = c.power
  enabled_eq : c'.vsyncEnabled = c.vsyncEnabled
  listener_eq : c'.vsyncListener = c.vsyncListener
  cycle_eq : c'.cycle = a.elim c.cycle fun a => (c.cycle.act a).1

/-- From `w` to `v`, loops and controller are tuned as before, unless the controller goes, no
    listener comes or goes, and the cycle is acted upon or left as it is. -/
structure Wall.Tunes (a : Option Act) (w v : Wall) : Prop where
  settings_eq : v.settings = w.settings
  listeners_eq : v.listeners.length = w.listeners.length
  controller : ∀ c', v.controller = some c' → ∃ c, w.controller = some c ∧ c.Tuned a c'

/-- A step that tunes nothing and acts on the cycle as `a` says. It tells the time `now`; what the
    cycle yields is the first thing that is left to do, and it is for the vsync listener. -/
structure Effect.Sounds (w : Wall) (now : Option Int) (a : Option Act) (e : Effect) : Prop where
  wall : w.Tunes a e.wall
  events_eq : Event.vsyncs e.events = now.toList
  tasks_eq : Task.vsyncs e.tasks = (w.controller.bind (·.yields? a)).toList
  tail_eq : Task.vsyncs e.tasks.tail = []
  heard : ∀ d, .deliver d ∈ e.tasks → d.notice.vsync?.isSome = true →
    ∃ c, w.controller = some c ∧ c.vsyncListener = some d.listener

namespace Wall

variable {w v u : Wall} {a : Option Act} {e : Effect}

theorem Tunes.of_eq (ht : v.settings = w.settings) (hl : v.listeners.length = w.listeners.length)
    (hc : v.controller = w.controller) : w.Tunes none v :=
  ⟨ht, hl, fun c h => ⟨c, hc ▸ h, rfl, rfl, rfl, rfl⟩⟩

theorem Tunes.refl (w : Wall) : w.Tunes none w := .of_eq rfl rfl rfl

theorem Tunes.trans (h : w.Tunes none v) (h' : v.Tunes a u) : w.Tunes a u where
  settings_eq := h'.settings_eq.trans h.settings_eq
  listeners_eq := h'.listeners_eq.trans h.listeners_eq
  controller := by
    intro c'' hc''
    obtain ⟨c', hc', ht'⟩ := h'.controller c'' hc''
    obtain ⟨c, hc, ht⟩ := h.controller c' hc'
    refine ⟨c, hc, ht'.power_eq.trans ht.power_eq, ht'.enabled_eq.trans ht.enabled_eq,
      ht'.listener_eq.trans ht.listener_eq, ?_⟩
    rw [ht'.cycle_eq, ht.cycle_eq]
    rfl

theorem Tunes.setController {c c' : Controller} (h : w.Tunes none v) (hc : w.controller = some c)
    (ht : c.Tuned a c') : w.Tunes a { v with controller := some c' } :=
  ⟨h.settings_eq, h.listeners_eq, fun _ hc' => ⟨c, hc, Option.some.inj hc' ▸ ht⟩⟩

/-- Whatever becomes of a tile but for the settings of its loop. -/
theorem tunes_setTile (w : Wall) (i : Nat) {f : Tile → Tile}
    (h : ∀ t, w.tiles[i]? = some t → (f t).settings = t.settings) :
    w.Tunes none (w.setTile i f) :=
  .of_eq (map_modify_of_eq h) rfl rfl

theorem tunes_mapLoop (w : Wall) (i : Nat) {f : Vblank.Loop Unit → Vblank.Loop Unit}
    (h : ∀ l, w.outputs[i]?.bind (·.loop) = some l → (f l).settings = l.settings) :
    w.Tunes none (w.setOutput i (·.mapLoop f)) := by
  refine w.tunes_setTile i fun t ht => ?_
  have hl : w.outputs[i]?.bind (·.loop) = t.output.loop := by simp [outputs, ht]
  rw [hl] at h
  cases ho : t.output.loop with
  | none => simp [Tile.settings, ho]
  | some l => simp [Tile.settings, ho, h l ho]

theorem tunes_settle (w : Wall) : w.Tunes none w.settle := by
  rw [settle]
  split
  · exact .refl w
  · refine ⟨?_, rfl, fun c hc => by cases hc⟩
    simp [settings, dissolve]

theorem tunes_reconcile {c : Controller} (hc : w.controller = some c) :
    w.Tunes none (w.reconcile c) := by
  rw [reconcile]
  split
  · have ht : w.Tunes none { w with tiles := w.tiles.mapIdx fun i t => Tile.reconcile t i } := by
      refine .of_eq ?_ rfl rfl
      refine List.ext_getElem? fun i => ?_
      cases h : w.tiles[i]? <;> simp [settings, h]
    exact ht.setController hc ⟨rfl, rfl, rfl, rfl⟩
  · exact .refl w

theorem tunes_deliver (w : Wall) (d : Delivery) : w.Tunes none (w.deliver d).wall := by
  have hl : (w.deliver d).wall.listeners.length = w.listeners.length := by
    simpa [scripts] using congrArg List.length (w.scripts_deliver d)
  obtain ⟨ls, hw⟩ := w.exists_wall_deliver d
  exact .of_eq (by rw [hw]; rfl) hl (by rw [hw])

/-- A step that has nothing to do with vsync. -/
theorem Tunes.mute (h : w.Tunes none e.wall) (ht : ∀ t ∈ e.tasks, t.vsync? = none)
    (he : ∀ x ∈ e.events, x.vsync? = none) : e.Sounds w none none where
  wall := h
  events_eq := Event.vsyncs_eq_nil he
  tasks_eq := by
    rw [Task.vsyncs_eq_nil ht]
    cases w.controller <;> rfl
  tail_eq := Task.vsyncs_eq_nil fun t hm => ht t (List.mem_of_mem_tail hm)
  heard := fun d hd hs => by
    rw [show d.notice.vsync? = none from ht _ hd] at hs
    cases hs

theorem Tunes.mute_of_nil (h : w.Tunes none e.wall) (ht : e.tasks = []) (he : e.events = []) :
    e.Sounds w none none :=
  h.mute (by rw [ht]; exact List.forall_mem_nil _) (by rw [he]; exact List.forall_mem_nil _)

theorem mute_self (w : Wall) (r : Reply) :
    ({ wall := w, reply := r } : Effect).Sounds w none none :=
  (Tunes.refl w).mute_of_nil rfl rfl

end Wall

/-! ### Calls on the controller -/

/-- A decision that tunes nothing and acts on the cycle as `a` says; what the cycle yields comes
    first. -/
structure Controller.Decides (c : Controller) (a : Option Act) (r : Controller × List Delivery) :
    Prop where
  tuned : c.Tuned a r.1
  vsyncs_eq : r.2.filterMap (·.notice.vsync?) = (c.yields? a).toList
  tail_eq : r.2.tail.filterMap (·.notice.vsync?) = []
  heard : ∀ d ∈ r.2, d.notice.vsync?.isSome = true → c.vsyncListener = some d.listener

namespace Controller

variable (c : Controller)

theorem decides_vblank (time : Int) :
    c.Decides (if c.counts then some (.observe time) else none) (c.vblank time) := by
  cases he : c.vsyncEnabled with
  | false =>
    rw [vblank, counts, he]
    exact ⟨⟨rfl, rfl, rfl, rfl⟩, rfl, rfl, List.forall_mem_nil _⟩
  | true =>
    cases hl : c.vsyncListener with
    | none =>
      rw [vblank, counts, he, hl]
      exact ⟨⟨rfl, rfl, rfl, rfl⟩, rfl, rfl, List.forall_mem_nil _⟩
    | some listener =>
      rw [vblank, counts, he, hl]
      cases hm : (c.cycle.observe time).2 with
      | none =>
        refine ⟨⟨rfl, he.symm, hl.symm, rfl⟩, ?_, ?_, ?_⟩ <;> simp [hm, yields?, Vsync.Cycle.act]
      | some m =>
        refine ⟨⟨rfl, he.symm, hl.symm, rfl⟩, ?_, ?_, ?_⟩ <;>
          simp [hm, yields?, Vsync.Cycle.act, Notice.vsync?, hl]

/-- The cycle that is cut short is delivered before the hotplug. -/
theorem decides_hotplug (outputs : Nat) (connected : Bool) :
    c.Decides (some (.retarget outputs c.counts)) (c.hotplug outputs connected) := by
  rw [hotplug]
  dsimp only [Vsync.Cycle.retarget]
  rw [← counts]
  have hyields : c.yields? (some (.retarget outputs c.counts)) =
      c.cycle.cutShort outputs c.counts := rfl
  -- without a listener no cycle is cut short
  have hnone : c.vsyncListener = none → c.cycle.cutShort outputs c.counts = none := by
    intro hl
    simp [Vsync.Cycle.cutShort, counts, hl]
  cases hl : c.vsyncListener with
  | none =>
    rw [hnone hl] at hyields ⊢
    split
    all_goals
      refine ⟨⟨rfl, rfl, hl.symm, rfl⟩, ?_, ?_, ?_⟩ <;> simp [hyields, Notice.vsync?]
  | some listener =>
    cases hm : c.cycle.cutShort outputs c.counts with
    | none =>
      rw [hm] at hyields
      split
      all_goals
        refine ⟨⟨rfl, rfl, hl.symm, rfl⟩, ?_, ?_, ?_⟩ <;> simp [hyields, Notice.vsync?]
    | some m =>
      rw [hm] at hyields
      split
      all_goals
        refine ⟨⟨rfl, rfl, hl.symm, rfl⟩, ?_, ?_, ?_⟩ <;> simp [hyields, Notice.vsync?, hl]

theorem decides_refresh : c.Decides none (c, c.refresh) := by
  have hnone : ∀ d ∈ c.refresh, d.notice.vsync? = none := by
    intro d hd
    rw [refresh] at hd
    split at hd
    · obtain ⟨n, -, rfl⟩ := List.mem_map.1 hd
      rfl
    · cases hd
  refine ⟨⟨rfl, rfl, rfl, rfl⟩, List.filterMap_eq_nil_iff.2 hnone, ?_, ?_⟩
  · exact List.filterMap_eq_nil_iff.2 fun d hd => hnone d (List.mem_of_mem_tail hd)
  · intro d hd hs
    rw [hnone d hd] at hs
    cases hs

end Controller

/-- Whether an operation is one by which the holder tunes the wall. -/
def Op.isTuning : Op → Bool
  | .setPowerMode _ | .control _ | .listen .. => true
  | _ => false

namespace Wall

/-- The timestamp that a task passes to the controller. -/
def time? (w : Wall) : Task → Option Int
  | .perform (.vsyncUpdate time) => if w.held then some time else none
  | .perform (.vblank i time force) =>
    if w.outputs[i]?.any fun o => o.onVsync.isSome && (o.forwarding || force) then some time
    else none
  | .item i (.flip f) => ((w.outputs[i]?.bind (·.loop)).bind fun l => (l.flip f).2.2).map (·.time)
  | _ => none

/-- How a task acts on the cycle of the controller, if it does. -/
def actOn? (w : Wall) (c : Controller) : Task → Option Act
  | .perform (.control enabled) =>
    if w.held && c.vsyncEnabled != enabled then some .restart else none
  | .perform (.hotplugUpdate _) =>
    if w.held then some (.retarget w.connectedCount c.counts) else none
  | .perform (.plug i connected) =>
    let v := w.setOutput i fun o => { o with connected }
    if v.outputs[i]?.any (·.onHotplug.isSome) then some (.retarget v.connectedCount c.counts)
    else none
  | t => if c.counts then (w.time? t).map .observe else none

/-- How a task acts on the cycle, as long as there is a controller. -/
def act? (w : Wall) (t : Task) : Option Act := w.controller.bind (w.actOn? · t)

variable {w v : Wall} {a : Option Act} {e : Effect}

/-- A call on the controller. -/
theorem sounds_enter {decide : Controller → Controller × List Delivery}
    {act : Controller → Option Act} (h : ∀ c : Controller, c.Decides (act c) (decide c)) :
    (w.enter decide).Sounds w none (w.controller.bind act) := by
  rcases w.enter_cases decide with ⟨hc, he⟩ | ⟨c, hc, he⟩ <;> rw [he, hc]
  · exact w.mute_self .ok
  · have hd := h c
    have hleave : Task.vsyncs [.leave] = [] := rfl
    have htasks : ∀ ds : List Delivery,
        Task.vsyncs (ds.map .deliver) = ds.filterMap (·.notice.vsync?) := by
      intro ds
      rw [Task.vsyncs, List.filterMap_map]
      rfl
    have hk : w.Tunes none { w with delivering := w.delivering + 1 } := .of_eq rfl rfl rfl
    refine ⟨hk.setController hc hd.tuned, rfl, ?_, ?_, ?_⟩
    · rw [Task.vsyncs_append, hleave, htasks, List.append_nil, hd.vsyncs_eq, hc]
      rfl
    · cases hds : (decide c).2 with
      | nil => rfl
      | cons d ds =>
        have htail := hd.tail_eq
        rw [hds, List.tail_cons] at htail
        rw [List.map_cons, List.cons_append, List.tail_cons, Task.vsyncs_append, hleave, htasks,
          htail, List.append_nil]
    · intro d hmem hs
      rcases List.mem_append.1 hmem with hmem | hmem
      · obtain ⟨d', hd', heq⟩ := List.mem_map.1 hmem
        cases heq
        exact ⟨c, hc, hd.heard d hd' hs⟩
      · cases List.mem_singleton.1 hmem

theorem sounds_through {registered : Bool} {decide : Controller → Controller × List Delivery}
    (h : registered = true → (w.enter decide).Sounds w none a)
    (hn : registered = false → a = none) : (w.through registered decide).Sounds w none a := by
  cases registered with
  | true => exact h rfl
  | false =>
    rw [hn rfl]
    exact w.mute_self .ok

theorem sounds_asHolder {f : Controller → Effect}
    (h : ∀ c, w.held = true → w.controller = some c → (f c).Sounds w none a)
    (hn : w.held = false ∨ w.controller = none → a = none) :
    (w.asHolder f).Sounds w none a := by
  rcases w.asHolder_cases f with ⟨c, hh, hc, he⟩ | ⟨hgone, he⟩
  · exact he ▸ h c hh hc
  · rw [he, hn hgone]
    exact w.mute_self .dropped

/-- A step that comes after a change that has nothing to do with vsync. -/
theorem Tunes.sounds (h : w.Tunes none v) (he : e.Sounds v none a)
    (hc : v.controller = w.controller) : e.Sounds w none a :=
  ⟨h.trans he.wall, he.events_eq, hc ▸ he.tasks_eq, he.tail_eq, hc ▸ he.heard⟩

/-! ### Steps -/

theorem vsync?_of_mem_callAll {call : OutputCall} {x : Event} (hx : x ∈ w.callAll call) :
    x.vsync? = none := by
  obtain ⟨i, -, rfl⟩ := List.mem_map.1 hx
  rfl

/-- An operation that has nothing to do with vsync. -/
theorem mute_asHolder {f : Controller → Effect}
    (h : ∀ c, w.controller = some c → (f c).Sounds w none none) :
    (w.asHolder f).Sounds w none none :=
  sounds_asHolder (fun c _ => h c) fun _ => rfl

theorem mute_setActiveConfig {c : Controller} (hc : w.controller = some c) (config : Nat) :
    (w.setActiveConfig c config).Sounds w none none := by
  have hk : w.Tunes none (w.setOutputs (·.setActiveConfig config)) := by
    refine .of_eq ?_ rfl rfl
    simp [settings, setOutputs, Tile.settings]
  have hw : w.Tunes none (w.setActiveConfig c config).wall :=
    hk.setController hc ⟨rfl, rfl, rfl, rfl⟩
  exact hw.mute (List.forall_mem_nil _) fun _ hx => vsync?_of_mem_callAll hx

/-- The tasks of a frame. -/
theorem mute_present {c : Controller} (hc : w.controller = some c) (layers : List Layer)
    (upload : Bool) (mark : Nat) : (w.present c layers upload mark).Sounds w none none := by
  rw [present]
  split
  · have hk : w.Tunes none { w.reconcile c with presenting := (w.reconcile c).presenting + 1 } :=
      (tunes_reconcile hc).trans (.of_eq rfl rfl rfl)
    refine hk.mute (fun t ht => ?_) (List.forall_mem_nil _)
    rcases List.mem_append.1 ht with ht | ht
    · rcases List.mem_append.1 ht with ht | ht
      · obtain ⟨i, hi⟩ := exists_tile_of_mem_schedule ht
        cases t <;> first | rfl | cases hi
      · split at ht
        · cases ht
        · rw [List.mem_singleton.1 ht]
          rfl
    · rw [List.mem_singleton.1 ht]
      rfl
  · exact w.mute_self .presented

theorem act?_eq_none {t : Task} (h : ∀ c, w.actOn? c t = none) : w.act? t = none := by
  rw [act?, funext h]
  cases w.controller <;> rfl

/-- A step that does not act on the cycle. -/
theorem unmoved {now : Option Int} {t : Task} (h : e.Sounds w now none)
    (ht : ∀ c, w.actOn? c t = none) : e.Sounds w now (w.act? t) := by
  rw [act?_eq_none ht]
  exact h

/-- Any operation but those by which the holder tunes the wall. -/
theorem sounds_begin (mark : Nat) {op : Op} (h : op.isTuning = false) :
    (w.begin mark op).Sounds w none (w.act? (.perform op)) := by
  cases op with
  | setPowerMode | control | listen => cases h
  | setActiveConfig config =>
    refine unmoved ?_ fun c => ite_self none
    exact mute_asHolder fun c hc => mute_setActiveConfig hc config
  | vsyncUpdate time =>
    refine sounds_asHolder (fun c hh _ => ?_) ?_
    · have hact : w.act? (.perform (.vsyncUpdate time)) =
          w.controller.bind fun c => if c.counts then some (.observe time) else none := by
        simp [act?, actOn?, time?, hh]
      rw [hact]
      exact sounds_enter fun c => c.decides_vblank time
    · rintro (hh | hc)
      · exact act?_eq_none fun c => by simp [actOn?, time?, hh]
      · rw [act?, hc]
        rfl
  | hotplugUpdate connected =>
    refine sounds_asHolder (fun c hh _ => ?_) ?_
    · have hact : w.act? (.perform (.hotplugUpdate connected)) =
          w.controller.bind fun c => some (.retarget w.connectedCount c.counts) := by
        simp [act?, actOn?, hh]
      rw [hact]
      exact sounds_enter fun c => c.decides_hotplug _ connected
    · rintro (hh | hc)
      · exact act?_eq_none fun c => by simp [actOn?, hh]
      · rw [act?, hc]
        rfl
  | refreshUpdate =>
    refine unmoved ?_ fun c => ite_self none
    refine mute_asHolder fun c hc => ?_
    have hs : (w.enter fun c => (c, c.refresh)).Sounds w none (w.controller.bind fun _ => none) :=
      sounds_enter fun c => c.decides_refresh
    rwa [hc] at hs
  | present layers upload =>
    refine unmoved ?_ fun c => ite_self none
    exact mute_asHolder fun c hc => mute_present hc layers upload mark
  | ask question =>
    refine unmoved ?_ fun c => ite_self none
    exact mute_asHolder fun c _ => w.mute_self _
  | vblank i time force =>
    refine sounds_through (fun hr => ?_) fun hr => act?_eq_none fun c => by simp [actOn?, time?, hr]
    have hact : w.act? (.perform (.vblank i time force)) =
        w.controller.bind fun c => if c.counts then some (.observe time) else none := by
      simp [act?, actOn?, time?, hr]
    rw [hact]
    exact sounds_enter fun c => c.decides_vblank time
  | plug i connected =>
    have hk := w.tunes_setTile i (f := fun t => { t with output := { t.output with connected } })
      fun _ _ => rfl
    refine hk.sounds (sounds_through (fun hr => ?_) fun hr => act?_eq_none fun c => ?_) rfl
    · have hact : w.act? (.perform (.plug i connected)) =
          w.controller.bind fun c => some (.retarget
            (w.setOutput i fun o => { o with connected }).connectedCount c.counts) := by
        simp [act?, actOn?, hr]
      rw [hact]
      exact sounds_enter fun c => c.decides_hotplug _ connected
    · simp [actOn?, hr]
  | requestRefresh i =>
    refine unmoved ?_ fun c => ite_self none
    refine sounds_through (fun _ => ?_) fun _ => rfl
    have hs : (w.enter fun c => (c, c.refresh)).Sounds w none (w.controller.bind fun _ => none) :=
      sounds_enter fun c => c.decides_refresh
    rwa [show (w.controller.bind fun _ => (none : Option Act)) = none by
      cases w.controller <;> rfl] at hs
  | change i change onPresent =>
    refine unmoved ?_ fun c => ite_self none
    have hk := w.tunes_setTile i (f := fun t => { t with output := t.output.change change })
      fun _ _ => rfl
    cases onPresent with
    | none => exact hk.mute_of_nil rfl rfl
    | some script =>
      have hs := (w.setOutput i (·.change change)).tunes_setTile i
        (f := fun t => { t with onPresent := script }) fun _ _ => rfl
      exact (hk.trans hs).mute_of_nil rfl rfl
  | feed i readings =>
    refine unmoved ?_ fun c => ite_self none
    exact (Tunes.refl w).mute (List.forall_mem_map.2 fun _ _ => rfl) (List.forall_mem_nil _)
  | drop =>
    refine unmoved ?_ fun c => ite_self none
    have hk : w.Tunes none { w with held := false } := .of_eq rfl rfl rfl
    exact (hk.trans (tunes_settle _)).mute_of_nil rfl rfl

/-- Who is told about vsync has to be there. -/
theorem sounds_deliver {d : Delivery}
    (hl : d.notice.vsync?.isSome = true → d.listener < w.listeners.length) :
    (w.deliver d).Sounds w d.notice.vsync? none := by
  have hmute : ∀ t ∈ (w.deliver d).tasks, t.vsync? = none := by
    intro t ht
    rw [tasks_deliver] at ht
    obtain ⟨op, -, rfl⟩ := List.mem_map.1 ht
    rfl
  have hs := (w.tunes_deliver d).mute (e := { w.deliver d with events := [] }) hmute
    (List.forall_mem_nil _)
  refine ⟨hs.wall, ?_, hs.tasks_eq, hs.tail_eq, hs.heard⟩
  rcases w.deliver_cases d with ⟨he, hnone⟩ | ⟨l, -, hcases⟩
  · rw [he]
    cases hn : d.notice.vsync? with
    | none => rfl
    | some m =>
      have hlt := hl (by rw [hn]; rfl)
      rw [List.getElem?_eq_none_iff] at hnone
      omega
  · have htold : Event.vsyncs [.told d.listener l.tag d.display d.notice] =
        d.notice.vsync?.toList := by
      rw [Event.vsyncs, List.filterMap_cons, Event.vsync?]
      cases d.notice.vsync? <;> rfl
    rcases hcases with ⟨-, he⟩ | ⟨left, -, he⟩ <;> rw [he] <;> exact htold

theorem mute_dispatch (w : Wall) (i : Nat) (job : Job) :
    (w.dispatch i job).Sounds w none none := by
  rcases w.dispatch_cases i job with ⟨log, he, -⟩ | ⟨k, -, -, he⟩ <;> rw [he]
  · exact (Tunes.refl w).mute_of_nil rfl rfl
  · exact (w.tunes_setTile i
      (f := fun t => { t with worker := some { k with queue := k.queue ++ [job] } }) fun _ _ =>
        rfl).mute_of_nil rfl rfl

/-- The output that shows a frame keeps its loop. -/
theorem mute_work (w : Wall) (i : Nat) : (w.work i).Sounds w none none := by
  rcases w.work_cases i with ⟨he, -⟩ | ⟨t, _, job, k', ht, -, -, script, _, _, he, -⟩ <;> rw [he]
  · exact w.mute_self .ok
  · refine (w.tunes_setTile i fun u hu => ?_).mute ?_ ?_
    · rw [Option.some.inj (hu.symm.trans ht)]
      rcases k'.compose_output t.output job with ho | ho <;> simp [Tile.settings, ho]
    · intro u hu
      rcases List.mem_append.1 hu with hu | hu
      · obtain ⟨op, -, rfl⟩ := List.mem_map.1 hu
        rfl
      · rw [List.mem_singleton.1 hu]
        rfl
    · intro x hx
      obtain ⟨call, -, rfl⟩ := Option.map_eq_some_iff.1 (Option.mem_toList.1 hx)
      rfl

theorem mute_arrive (w : Wall) (i : Nat) (r : Vblank.Reading) :
    (w.arrive i r).Sounds w none none := by
  have hk := w.tunes_mapLoop i (f := (·.enqueue r)) fun _ _ => rfl
  rcases w.arrive_cases i r with ⟨he, -⟩ | he <;> rw [he]
  · exact hk.mute_of_nil rfl rfl
  · exact hk.mute (List.forall_mem_singleton.2 rfl) (List.forall_mem_nil _)

theorem mute_poll (w : Wall) (i : Nat) : (w.poll i).Sounds w none none := by
  rcases w.poll_cases i with ⟨he, -⟩ | ⟨l, r, l', hl, htake, he⟩ <;> rw [he]
  · exact w.mute_self .ok
  · have hk := w.tunes_mapLoop i (f := fun _ => l') fun m hm => by
      rw [← Option.some.inj (hl.symm.trans hm), (Vblank.Loop.of_take?_eq_some htake).2.2]
      rfl
    exact hk.mute (Task.forall_iteration (P := fun t => t.vsync? = none) (fun _ => rfl) rfl rfl
      r.items) (List.forall_mem_nil _)

theorem mute_arm (w : Wall) (i : Nat) : (w.arm i).Sounds w none none := by
  rcases w.arm_cases i with ⟨he, -⟩ | ⟨l, hl, he⟩ <;> rw [he]
  · exact w.mute_self .ok
  · have hk := w.tunes_mapLoop i (f := fun _ => l.arm.1) fun m hm => by
      rw [← Option.some.inj (hl.symm.trans hm)]
      rfl
    exact hk.mute_of_nil rfl rfl

/-- A flip that a loop forwards is a vblank. -/
theorem sounds_item (w : Wall) (i : Nat) (x : Vblank.Item) :
    (w.item i x).Sounds w none (w.act? (.item i x)) := by
  rcases w.item_cases i x with ⟨log, he, hnone⟩ | ⟨l, f, log, hl, rfl, hcall⟩
  · rw [he]
    refine unmoved ((Tunes.refl w).mute_of_nil rfl rfl) fun c => ?_
    cases x with
    | remark r => exact ite_self none
    | flip f =>
      have hl := hnone.resolve_right (by simp [Vblank.Item.isFlip])
      simp [actOn?, time?, hl]
  · have hset : (l.flip f).1.settings = l.settings := by
      rw [Vblank.Loop.flip]
      split <;> rfl
    have hk := w.tunes_mapLoop i (f := fun _ => (l.flip f).1) fun m hm => by
      rw [← Option.some.inj (hl.symm.trans hm), hset]
    rcases hcall with ⟨hcall, he⟩ | ⟨call, hcall, he⟩ <;> rw [he]
    · exact unmoved (hk.mute_of_nil rfl rfl) fun c => by simp [actOn?, time?, hl, hcall]
    · have hact : w.act? (.item i (.flip f)) =
          w.controller.bind fun c => if c.counts then some (.observe call.time) else none := by
        simp [act?, actOn?, time?, hl, hcall]
      rw [hact]
      have hs := hk.sounds (sounds_enter fun c => c.decides_vblank call.time) rfl
      exact ⟨hs.wall, hs.events_eq, hs.tasks_eq, hs.tail_eq, hs.heard⟩

/-- Any step but those by which the holder tunes the wall. -/
theorem sounds_exec (mark : Nat) {t : Task} (ht : ∀ op, t = .perform op → op.isTuning = false)
    (hl : ∀ d, t = .deliver d → d.notice.vsync?.isSome = true → d.listener < w.listeners.length) :
    (w.exec mark t).Sounds w t.vsync? (w.act? t) := by
  cases t with
  | perform op =>
    have hb := sounds_begin (w := w) mark (ht op rfl)
    refine ⟨hb.wall, hb.events_eq, ?_, ?_, ?_⟩
    · exact (Task.vsyncs_append_report ..).trans hb.tasks_eq
    · exact (Task.vsyncs_tail_append_report ..).trans hb.tail_eq
    · intro d hd
      rcases List.mem_append.1 hd with hd | hd
      · exact hb.heard d hd
      · cases List.mem_singleton.1 hd
  | report op reply =>
    exact unmoved ((Tunes.refl w).mute (List.forall_mem_nil _) (List.forall_mem_singleton.2 rfl))
      fun c => ite_self none
  | deliver d => exact unmoved (sounds_deliver (hl d rfl)) fun c => ite_self none
  | leave =>
    have hk : w.Tunes none { w with delivering := w.delivering - 1 } := .of_eq rfl rfl rfl
    exact unmoved ((hk.trans (tunes_settle _)).mute_of_nil rfl rfl) fun c => ite_self none
  | endFrame =>
    have hk : w.Tunes none { w with presenting := w.presenting - 1 } := .of_eq rfl rfl rfl
    exact unmoved ((hk.trans (tunes_settle _)).mute_of_nil rfl rfl) fun c => ite_self none
  | dispatch i job => exact unmoved (w.mute_dispatch i job) fun c => ite_self none
  | work i => exact unmoved (w.mute_work i) fun c => ite_self none
  | finish i upload s =>
    have hk : w.Tunes none { w with uploads := w.uploads + s.uploads upload } := .of_eq rfl rfl rfl
    have hf := tunes_setTile { w with uploads := w.uploads + s.uploads upload } i
      (f := (·.finish s)) fun t _ => t.settings_finish s
    exact unmoved ((hk.trans hf).mute_of_nil rfl rfl) fun c => ite_self none
  | await i =>
    have hk := w.tunes_setTile i (f := fun t => { t with worker := t.worker.map Worker.wait })
      fun _ _ => rfl
    exact unmoved (hk.mute_of_nil rfl rfl) fun c => ite_self none
  | group m => exact unmoved (w.mute_self .ok) fun c => ite_self none
  | arrive i r => exact unmoved (w.mute_arrive i r) fun c => ite_self none
  | poll i => exact unmoved (w.mute_poll i) fun c => ite_self none
  | item i x => exact w.sounds_item i x
  | arm i => exact unmoved (w.mute_arm i) fun c => ite_self none

theorem tunes_exec (mark : Nat) {t : Task} (ht : ∀ op, t = .perform op → op.isTuning = false) :
    w.Tunes (w.act? t) (w.exec mark t).wall := by
  by_cases hd : ∃ d, t = .deliver d
  · obtain ⟨d, rfl⟩ := hd
    have hact : w.act? (.deliver d) = none := act?_eq_none fun c => ite_self none
    rw [hact]
    exact w.tunes_deliver d
  · exact (sounds_exec mark ht fun d he => absurd ⟨d, he⟩ hd).wall

end Wall

end VideoWall
