import VideoWall.Proofs.Passive
import VideoWall.Proofs.Steady

/-! Walls on which nobody but a hotplug listener reports a hotplug on their own.

    What a listener does may be to report another hotplug, and that is why it matters when it is
    told something. A wall is guarded when listeners for vsync and refresh, and outputs that show a
    frame, do not report hotplugs; hotplug listeners may. On such a wall a task that tells no
    hotplug and reports none leads to nothing but such tasks, and leaves the connection state as it
    is: `Wall.Guarded.quiet_exec`. -/

namespace VideoWall

/-! ### Scripts -/

/-- Whether an operation reports a hotplug to the controller. -/
def Op.isReport : Op → Bool
  | .hotplugUpdate _ => true
  | .plug .. => true
  | _ => false

mutual

/-- No script that an operation leaves behind reports a hotplug, but that of a hotplug listener. -/
def Op.isGuarded : Op → Bool
  | .listen channel _ _ script _ => Op.areGuarded (channel == .hotplug) script
  | .change _ _ onPresent => Op.areGuardedOf onPresent
  | _ => true

/-- All operations of a script are guarded; they may report hotplugs themselves, if `reports`. -/
def Op.areGuarded (reports : Bool) : List Op → Bool
  | [] => true
  | op :: rest => (reports || !op.isReport) && Op.isGuarded op && Op.areGuarded reports rest

/-- All operations of a script that may be missing are guarded and report no hotplug. -/
def Op.areGuardedOf : Option (List Op) → Bool
  | none => true
  | some script => Op.areGuarded false script

end

theorem Op.areGuarded_iff {reports : Bool} {script : List Op} :
    Op.areGuarded reports script = true ↔
      ∀ op ∈ script, (reports || !op.isReport) = true ∧ op.isGuarded = true := by
  induction script with
  | nil => simp [Op.areGuarded]
  | cons op rest ih => simp [Op.areGuarded, ih]

/-- The listener with the number `n` is there, and its script is guarded. -/
def Hears (scripts : List (List Op)) (reports : Bool) (n : Nat) : Prop :=
  ∃ script, scripts[n]? = some script ∧ Op.areGuarded reports script = true

theorem Hears.mono {scripts more : List (List Op)} {reports : Bool} {n : Nat}
    (h : Hears scripts reports n) (hp : scripts <+: more) : Hears more reports n := by
  obtain ⟨script, hn, hs⟩ := h
  obtain ⟨added, rfl⟩ := hp
  exact ⟨script, List.getElem?_append_left (List.getElem?_eq_some_iff.1 hn).1 ▸ hn, hs⟩

/-! ### Tasks -/

/-- A task that performs a guarded operation, or tells something to a listener with a guarded
    script. It may report or tell a hotplug, if `reports`. -/
def Task.Guarded (scripts : List (List Op)) (reports : Bool) : Task → Prop
  | .perform op => (reports || !op.isReport) = true ∧ op.isGuarded = true
  | .deliver d =>
    (d.notice.hotplug?.isSome = true → reports = true) ∧
      Hears scripts d.notice.hotplug?.isSome d.listener
  | _ => True

namespace Task

variable {scripts more : List (List Op)} {reports : Bool} {t : Task}

theorem Guarded.mono (h : t.Guarded scripts reports) (hp : scripts <+: more) :
    t.Guarded more reports := by
  cases t with
  | perform op => exact h
  | deliver d => exact ⟨h.1, h.2.mono hp⟩
  | _ => trivial

/-- What reports no hotplug might as well. -/
theorem Guarded.of_quiet (h : t.Guarded scripts false) (reports : Bool) :
    t.Guarded scripts reports := by
  cases t with
  | perform op => exact ⟨by simp [(Bool.false_or _).symm.trans h.1], h.2⟩
  | deliver d => exact ⟨fun hd => absurd (h.1 hd) Bool.false_ne_true, h.2⟩
  | _ => trivial

theorem Guarded.hotplug? (h : t.Guarded scripts false) : t.hotplug? = none := by
  cases t with
  | deliver d => exact Option.not_isSome_iff_eq_none.1 fun hd => Bool.false_ne_true (h.1 hd)
  | _ => rfl

/-- A script that is to be performed. -/
theorem guarded_of_mem_perform {script : List Op} (h : Op.areGuarded reports script = true)
    (ht : t ∈ script.map Task.perform) : t.Guarded scripts reports := by
  obtain ⟨op, hop, rfl⟩ := List.mem_map.1 ht
  exact Op.areGuarded_iff.1 h op hop

end Task

/-! ### Walls -/

/-- A controller with the connection state `flag`, whose listeners are there and guarded. -/
structure Controller.Guarded (flag : Bool) (scripts : List (List Op)) (c : Controller) : Prop where
  connected_eq : c.connected = flag
  vsync : ∀ n, c.vsyncListener = some n → Hears scripts false n
  refresh : ∀ n, c.refreshListener = some n → Hears scripts false n
  hotplug : ∀ n, c.hotplugListener = some n → Hears scripts true n

/-- A wall whose controller, while it is there, has the connection state `flag`, and on which nobody
    but hotplug listeners reports hotplugs on their own. -/
structure Wall.Guarded (flag : Bool) (w : Wall) : Prop where
  onPresent : ∀ t ∈ w.tiles, Op.areGuarded false t.onPresent = true
  controller : ∀ c, w.controller = some c → c.Guarded flag w.scripts

/-- The two controllers have the same connection state and the same listeners. -/
structure Controller.Agrees (c c' : Controller) : Prop where
  connected_eq : c'.connected = c.connected
  vsync_eq : c'.vsyncListener = c.vsyncListener
  refresh_eq : c'.refreshListener = c.refreshListener
  hotplug_eq : c'.hotplugListener = c.hotplugListener

/-- From `w` to `v`, no listener comes and no script changes, but that an output may lose its own;
    the controller keeps its connection state and its listeners, or goes. -/
structure Wall.Retains (w v : Wall) : Prop where
  scripts_eq : v.scripts = w.scripts
  onPresent : ∀ t ∈ v.tiles, t.onPresent = [] ∨ ∃ u ∈ w.tiles, t.onPresent = u.onPresent
  controller : ∀ c', v.controller = some c' → ∃ c, w.controller = some c ∧ c.Agrees c'

namespace Controller

variable {c c' c'' : Controller} {flag : Bool} {scripts more : List (List Op)}

theorem Agrees.refl (c : Controller) : c.Agrees c := ⟨rfl, rfl, rfl, rfl⟩

theorem Agrees.trans (h : c.Agrees c') (h' : c'.Agrees c'') : c.Agrees c'' :=
  ⟨h'.connected_eq.trans h.connected_eq, h'.vsync_eq.trans h.vsync_eq,
    h'.refresh_eq.trans h.refresh_eq, h'.hotplug_eq.trans h.hotplug_eq⟩

theorem Guarded.of_agrees (h : c.Guarded flag scripts) (ha : c.Agrees c') :
    c'.Guarded flag scripts where
  connected_eq := ha.connected_eq.trans h.connected_eq
  vsync := ha.vsync_eq ▸ h.vsync
  refresh := ha.refresh_eq ▸ h.refresh
  hotplug := ha.hotplug_eq ▸ h.hotplug

theorem Guarded.mono (h : c.Guarded flag scripts) (hp : scripts <+: more) :
    c.Guarded flag more where
  connected_eq := h.connected_eq
  vsync := fun n hn => (h.vsync n hn).mono hp
  refresh := fun n hn => (h.refresh n hn).mono hp
  hotplug := fun n hn => (h.hotplug n hn).mono hp

theorem agrees_control (c : Controller) (enabled : Bool) : c.Agrees (c.control enabled) := by
  rw [control]
  split
  · exact .refl c
  · exact ⟨rfl, rfl, rfl, rfl⟩

theorem agrees_vblank (c : Controller) (t : Int) : c.Agrees (c.vblank t).1 := by
  rw [vblank]
  split
  · exact ⟨rfl, rfl, rfl, rfl⟩
  · exact .refl c

/-- A vblank tells the vsync listener, if anybody. -/
theorem of_mem_vblank {t : Int} {d : Delivery} (hd : d ∈ (c.vblank t).2) :
    c.vsyncListener = some d.listener ∧ d.notice.hotplug? = none := by
  rw [vblank] at hd
  split at hd
  · next hl =>
    obtain ⟨m, -, rfl⟩ := List.mem_map.1 hd
    exact ⟨hl, rfl⟩
  · cases hd

theorem of_mem_refresh {d : Delivery} (hd : d ∈ c.refresh) :
    c.refreshListener = some d.listener ∧ d.notice.hotplug? = none := by
  rw [Controller.refresh] at hd
  split at hd
  · obtain ⟨n, hn, rfl⟩ := List.mem_map.1 hd
    exact ⟨Option.mem_toList.1 hn, rfl⟩
  · cases hd

end Controller

namespace Wall

variable {w v u : Wall} {flag : Bool}

theorem Retains.of_eq (hs : v.scripts = w.scripts) (ht : v.tiles = w.tiles)
    (hc : v.controller = w.controller) : w.Retains v where
  scripts_eq := hs
  onPresent := fun t hmem => .inr ⟨t, ht ▸ hmem, rfl⟩
  controller := fun c hv => ⟨c, hc ▸ hv, .refl c⟩

theorem Retains.refl (w : Wall) : w.Retains w := .of_eq rfl rfl rfl

theorem Retains.trans (h : w.Retains v) (h' : v.Retains u) : w.Retains u where
  scripts_eq := h'.scripts_eq.trans h.scripts_eq
  onPresent := by
    intro t ht
    rcases h'.onPresent t ht with hnil | ⟨s, hs, heq⟩
    · exact .inl hnil
    · rw [heq]
      exact h.onPresent s hs
  controller := by
    intro c'' hc''
    obtain ⟨c', hc', ha'⟩ := h'.controller c'' hc''
    obtain ⟨c, hc, ha⟩ := h.controller c' hc'
    exact ⟨c, hc, ha.trans ha'⟩

theorem Guarded.of_retains (h : w.Guarded flag) (hr : w.Retains v) : v.Guarded flag where
  onPresent := by
    intro t ht
    rcases hr.onPresent t ht with hnil | ⟨u, hu, heq⟩
    · rw [hnil]
      rfl
    · rw [heq]
      exact h.onPresent u hu
  controller := by
    intro c' hc'
    obtain ⟨c, hc, ha⟩ := hr.controller c' hc'
    rw [hr.scripts_eq]
    exact (h.controller c hc).of_agrees ha

/-! ### Elementary changes -/

theorem Retains.setController {c c' : Controller} (h : w.Retains v) (hc : w.controller = some c)
    (ha : c.Agrees c') : w.Retains { v with controller := some c' } where
  scripts_eq := h.scripts_eq
  onPresent := h.onPresent
  controller := fun _ hc' => ⟨c, hc, Option.some.inj hc' ▸ ha⟩

theorem retains_setTile (w : Wall) (i : Nat) {f : Tile → Tile}
    (h : ∀ t, w.tiles[i]? = some t → (f t).onPresent = [] ∨ (f t).onPresent = t.onPresent) :
    w.Retains (w.setTile i f) where
  scripts_eq := rfl
  onPresent := by
    intro t ht
    obtain ⟨u, hmem, rfl | ⟨hu, rfl⟩⟩ := exists_of_mem_setTile ht
    · exact .inr ⟨t, hmem, rfl⟩
    · exact (h u hu).imp_right fun heq => ⟨u, hmem, heq⟩
  controller := fun c hc => ⟨c, hc, .refl c⟩

theorem retains_setOutput (w : Wall) (i : Nat) (f : Output → Output) :
    w.Retains (w.setOutput i f) := w.retains_setTile i fun _ _ => .inr rfl

theorem retains_setOutputs (w : Wall) (f : Output → Output) : w.Retains (w.setOutputs f) where
  scripts_eq := rfl
  onPresent := by
    intro t ht
    obtain ⟨u, hu, rfl⟩ := List.mem_map.1 ht
    exact .inr ⟨u, hu, rfl⟩
  controller := fun c hc => ⟨c, hc, .refl c⟩

theorem retains_settle (w : Wall) : w.Retains w.settle := by
  rw [settle]
  split
  · exact .refl w
  · refine ⟨rfl, ?_, fun c hc => by cases hc⟩
    intro t ht
    obtain ⟨u, hu, rfl⟩ := List.mem_map.1 ht
    exact .inr ⟨u, hu, u.onPresent_retire⟩

theorem retains_reconcile {c : Controller} (hc : w.controller = some c) :
    w.Retains (w.reconcile c) := by
  rw [reconcile]
  split
  · have hr : w.Retains { w with tiles := w.tiles.mapIdx fun i t => Tile.reconcile t i } := by
      refine ⟨rfl, ?_, fun c hc => ⟨c, hc, .refl c⟩⟩
      intro t ht
      obtain ⟨i, hi, rfl⟩ := List.mem_mapIdx.1 ht
      exact .inr ⟨_, List.getElem_mem hi, Tile.onPresent_reconcile _ i⟩
    exact hr.setController hc ⟨rfl, rfl, rfl, rfl⟩
  · exact .refl w

end Wall

/-! ### Quiet steps -/

/-- A step from a wall with the given scripts that leaves the connection state at `flag`, tells no
    hotplug, and leads to nothing that does. -/
structure Effect.Quiet (flag : Bool) (scripts : List (List Op)) (e : Effect) : Prop where
  guarded : e.wall.Guarded flag
  scripts_le : scripts <+: e.wall.scripts
  tasks : ∀ t ∈ e.tasks, t.Guarded e.wall.scripts false
  events : ∀ x ∈ e.events, x.hotplug? = none

namespace Wall

variable {w v : Wall} {flag : Bool} {e : Effect}

theorem Retains.quiet (h : w.Retains e.wall) (hw : w.Guarded flag)
    (ht : ∀ t ∈ e.tasks, t.Guarded w.scripts false) (he : ∀ x ∈ e.events, x.hotplug? = none) :
    e.Quiet flag w.scripts where
  guarded := hw.of_retains h
  scripts_le := h.scripts_eq ▸ List.prefix_rfl
  tasks := h.scripts_eq ▸ ht
  events := he

/-- A step that leaves nothing to do and shows nothing. -/
theorem Retains.quiet_of_nil (h : w.Retains e.wall) (hw : w.Guarded flag) (ht : e.tasks = [])
    (he : e.events = []) : e.Quiet flag w.scripts :=
  h.quiet hw (by rw [ht]; exact List.forall_mem_nil _) (by rw [he]; exact List.forall_mem_nil _)

theorem Guarded.quiet_self (h : w.Guarded flag) (reply : Reply) :
    ({ wall := w, reply } : Effect).Quiet flag w.scripts :=
  (Retains.refl w).quiet_of_nil h rfl rfl

/-- A call that decides to tell the listeners for vsync or refresh something, if anybody. -/
theorem Guarded.quiet_enter (h : w.Guarded flag) {d : Controller → Controller × List Delivery}
    (ha : ∀ c : Controller, c.Agrees (d c).1)
    (hd : ∀ c : Controller, ∀ x ∈ (d c).2, x.notice.hotplug? = none ∧
      (c.vsyncListener = some x.listener ∨ c.refreshListener = some x.listener)) :
    (w.enter d).Quiet flag w.scripts := by
  rcases w.enter_cases d with ⟨-, he⟩ | ⟨c, hc, he⟩ <;> rw [he]
  · exact h.quiet_self .ok
  · have hr : w.Retains { w with delivering := w.delivering + 1 } := .of_eq rfl rfl rfl
    refine (hr.setController hc (ha c)).quiet h ?_ (List.forall_mem_nil _)
    intro t ht
    rcases List.mem_append.1 ht with ht | ht
    · obtain ⟨x, hx, rfl⟩ := List.mem_map.1 ht
      obtain ⟨hn, hl⟩ := hd c x hx
      have hg := h.controller c hc
      rw [Task.Guarded, hn]
      exact ⟨fun hs => absurd hs Bool.false_ne_true, hl.elim (hg.vsync _) (hg.refresh _)⟩
    · rw [List.mem_singleton.1 ht]
      trivial

theorem Guarded.quiet_vblank (h : w.Guarded flag) (t : Int) :
    (w.enter (·.vblank t)).Quiet flag w.scripts :=
  h.quiet_enter (fun c => c.agrees_vblank t) fun _ _ hx =>
    ⟨(Controller.of_mem_vblank hx).2, .inl (Controller.of_mem_vblank hx).1⟩

theorem Guarded.quiet_refresh (h : w.Guarded flag) :
    (w.enter fun c => (c, c.refresh)).Quiet flag w.scripts :=
  h.quiet_enter Controller.Agrees.refl fun _ _ hx =>
    ⟨(Controller.of_mem_refresh hx).2, .inr (Controller.of_mem_refresh hx).1⟩

theorem Guarded.quiet_through (h : w.Guarded flag) {registered : Bool}
    {d : Controller → Controller × List Delivery} (hd : (w.enter d).Quiet flag w.scripts) :
    (w.through registered d).Quiet flag w.scripts := by
  rcases w.through_cases registered d with ⟨-, he⟩ | ⟨-, he⟩ <;> rw [he]
  · exact hd
  · exact h.quiet_self .ok

theorem Guarded.quiet_asHolder (h : w.Guarded flag) {f : Controller → Effect}
    (hf : ∀ c, w.controller = some c → (f c).Quiet flag w.scripts) :
    (w.asHolder f).Quiet flag w.scripts := by
  rcases w.asHolder_cases f with ⟨c, -, hc, he⟩ | ⟨-, he⟩ <;> rw [he]
  · exact hf c hc
  · exact h.quiet_self .dropped

/-- Changing all outputs alike, and the controller but for its connection state and listeners. -/
theorem Guarded.quiet_callAll (h : w.Guarded flag) {c c' : Controller} (hc : w.controller = some c)
    (ha : c.Agrees c') (f : Output → Output) (call : OutputCall) {late : List Nat} :
    ({ wall := { w.setOutputs f with controller := some c' }, events := w.callAll call, late } :
      Effect).Quiet flag w.scripts :=
  ((w.retains_setOutputs f).setController hc ha).quiet h (List.forall_mem_nil _)
    fun _ hx => hotplug?_of_mem_callAll hx

/-- A new listener is told nothing yet. -/
theorem Guarded.quiet_listen (h : w.Guarded flag) {c : Controller} (hc : w.controller = some c)
    (channel : Channel) (display : DisplayId) {l : Listener}
    (hl : Op.areGuarded (channel == .hotplug) l.script = true) :
    (w.listen c channel display l).Quiet flag w.scripts := by
  have hs : (w.listen c channel display l).wall.scripts = w.scripts ++ [l.script] := by
    simp [Wall.listen, scripts, addListener, setOutputs]
  have hp : w.scripts <+: w.scripts ++ [l.script] := List.prefix_append _ _
  have hnew : (w.scripts ++ [l.script])[w.listeners.length]? = some l.script := by
    simp [scripts]
  have hg := (h.controller c hc).mono hp
  refine ⟨⟨?_, ?_⟩, hs ▸ hp, List.forall_mem_nil _, ?_⟩
  · intro t ht
    obtain ⟨u, hu, rfl⟩ := List.mem_map.1 ht
    exact h.onPresent u hu
  · rw [hs]
    rintro c' ⟨⟩
    cases channel with
    | vsync => exact ⟨hg.connected_eq, by rintro n ⟨⟩; exact ⟨_, hnew, hl⟩, hg.refresh, hg.hotplug⟩
    | refresh => exact ⟨hg.connected_eq, hg.vsync, by rintro n ⟨⟩; exact ⟨_, hnew, hl⟩, hg.hotplug⟩
    | hotplug => exact ⟨hg.connected_eq, hg.vsync, hg.refresh, by rintro n ⟨⟩; exact ⟨_, hnew, hl⟩⟩
  · intro x hx
    obtain ⟨i, hi, rfl⟩ := List.mem_mapIdx.1 hx
    rfl

/-- The tasks of a frame. -/
theorem guarded_of_mem_schedule {p : Pipeline} {jobs : List (Nat × Job)} {t : Task}
    {scripts : List (List Op)} (h : t ∈ schedule p jobs) : t.Guarded scripts false := by
  obtain ⟨i, hi⟩ := exists_tile_of_mem_schedule h
  cases t <;> trivial

theorem Guarded.quiet_present (h : w.Guarded flag) {c : Controller} (hc : w.controller = some c)
    (layers : List Layer) (upload : Bool) (mark : Nat) :
    (w.present c layers upload mark).Quiet flag w.scripts := by
  rw [present]
  split
  · have hr : w.Retains { w.reconcile c with presenting := (w.reconcile c).presenting + 1 } :=
      (retains_reconcile hc).trans (.of_eq rfl rfl rfl)
    refine hr.quiet h ?_ (List.forall_mem_nil _)
    intro t ht
    rcases List.mem_append.1 ht with ht | ht
    · rcases List.mem_append.1 ht with ht | ht
      · exact guarded_of_mem_schedule ht
      · split at ht
        · cases ht
        · rw [List.mem_singleton.1 ht]
          trivial
    · rw [List.mem_singleton.1 ht]
      trivial
  · exact h.quiet_self .presented

/-- A silent change of an output, with a new script or without. -/
theorem Guarded.quiet_change (h : w.Guarded flag) (mark i : Nat) (change : OutputChange)
    {onPresent : Option (List Op)} (ho : Op.areGuardedOf onPresent = true) :
    (w.begin mark (.change i change onPresent)).Quiet flag w.scripts := by
  have hr := w.retains_setOutput i (·.change change)
  cases onPresent with
  | none => exact hr.quiet_of_nil h rfl rfl
  | some script =>
    have hg := h.of_retains hr
    refine ⟨⟨?_, hg.controller⟩, List.prefix_rfl, List.forall_mem_nil _, List.forall_mem_nil _⟩
    intro t ht
    obtain ⟨u, hmem, rfl | ⟨-, rfl⟩⟩ := exists_of_mem_setTile ht
    · exact hg.onPresent t hmem
    · exact ho

/-- An operation that reports no hotplug. -/
theorem Guarded.quiet_begin (h : w.Guarded flag) (mark : Nat) {op : Op}
    (hr : op.isReport = false) (hg : op.isGuarded = true) :
    (w.begin mark op).Quiet flag w.scripts := by
  cases op with
  | setActiveConfig config =>
    refine h.quiet_asHolder fun c hc => h.quiet_callAll hc ?_ _ _
    exact ⟨rfl, rfl, rfl, rfl⟩
  | setPowerMode mode =>
    refine h.quiet_asHolder fun c hc => h.quiet_callAll hc ?_ _ _
    exact ⟨rfl, rfl, rfl, rfl⟩
  | control enabled =>
    refine h.quiet_asHolder fun c hc => ?_
    rw [Wall.control]
    split
    · exact h.quiet_self .ok
    · exact h.quiet_callAll hc (c.agrees_control enabled) _ _
  | vsyncUpdate time => exact h.quiet_asHolder fun _ _ => h.quiet_vblank time
  | hotplugUpdate connected => cases hr
  | refreshUpdate => exact h.quiet_asHolder fun _ _ => h.quiet_refresh
  | listen channel display tag script limit =>
    exact h.quiet_asHolder fun c hc => h.quiet_listen hc channel display hg
  | present layers upload =>
    exact h.quiet_asHolder fun c hc => h.quiet_present hc layers upload mark
  | ask question => exact h.quiet_asHolder fun _ _ => h.quiet_self _
  | vblank i time force => exact h.quiet_through (h.quiet_vblank time)
  | plug i connected => cases hr
  | requestRefresh i => exact h.quiet_through h.quiet_refresh
  | change i change onPresent => exact h.quiet_change mark i change hg
  | feed i readings =>
    refine (Retains.refl w).quiet h ?_ (List.forall_mem_nil _)
    intro t ht
    obtain ⟨r, -, rfl⟩ := List.mem_map.1 ht
    trivial
  | drop =>
    have hr : w.Retains { w with held := false } := .of_eq rfl rfl rfl
    exact (hr.trans (retains_settle _)).quiet_of_nil h rfl rfl

/-! ### Quiet tasks -/

/-- A listener that is told something does what its script says. -/
theorem guarded_setOff {reports : Bool} {n : Nat} (h : Hears w.scripts reports n) :
    Op.areGuarded reports (w.setOff n) = true := by
  obtain ⟨script, hn, hs⟩ := h
  rw [scripts, List.getElem?_map] at hn
  obtain ⟨l, hl, rfl⟩ := Option.map_eq_some_iff.1 hn
  rw [setOff, hl]
  dsimp only
  split
  · rfl
  · exact hs

theorem retains_deliver (w : Wall) (d : Delivery) : w.Retains (w.deliver d).wall := by
  obtain ⟨ls, hw⟩ := w.exists_wall_deliver d
  exact .of_eq (w.scripts_deliver d) (by rw [hw]) (by rw [hw])

/-- Only the notice itself is told. -/
theorem events_deliver {d : Delivery} {reports : Bool} (h : Hears w.scripts reports d.listener) :
    ∃ tag, (w.deliver d).events = [.told d.listener tag d.display d.notice] := by
  obtain ⟨script, hn, -⟩ := h
  rw [scripts, List.getElem?_map] at hn
  obtain ⟨l, hl, -⟩ := Option.map_eq_some_iff.1 hn
  rcases w.deliver_cases d with ⟨-, hnone⟩ | ⟨l', hl', hcases⟩
  · cases hl.symm.trans hnone
  · refine ⟨l'.tag, ?_⟩
    rcases hcases with ⟨-, he⟩ | ⟨left, -, he⟩ <;> rw [he]

theorem Guarded.quiet_dispatch (h : w.Guarded flag) (i : Nat) (job : Job) :
    (w.dispatch i job).Quiet flag w.scripts := by
  rcases w.dispatch_cases i job with ⟨log, he, -⟩ | ⟨k, -, -, he⟩ <;> rw [he]
  · exact (Retains.refl w).quiet_of_nil h rfl rfl
  · have hr := w.retains_setTile i
      (f := fun t => { t with worker := some { k with queue := k.queue ++ [job] } }) fun _ _ =>
        .inr rfl
    exact hr.quiet_of_nil h rfl rfl

/-- While an output shows a frame its script runs, which reports no hotplug. -/
theorem Guarded.quiet_work (h : w.Guarded flag) (i : Nat) :
    (w.work i).Quiet flag w.scripts := by
  rcases w.work_cases i with
    ⟨he, -⟩ | ⟨t, k, job, k', ht, -, -, script, onPresent, log, he, hleft⟩ <;> rw [he]
  · exact h.quiet_self .ok
  · refine (w.retains_setTile i ?_).quiet h ?_ ?_
    · intro u hu
      rw [Option.some.inj (hu.symm.trans ht)]
      rcases hleft with ⟨-, ho⟩ | ⟨-, ho⟩
      · exact .inr ho
      · exact .inl ho
    · intro t' ht'
      rcases List.mem_append.1 ht' with hm | hm
      · rcases hleft with ⟨rfl, -⟩ | ⟨rfl, -⟩
        · cases hm
        · exact Task.guarded_of_mem_perform (h.onPresent t (List.mem_of_getElem? ht)) hm
      · rw [List.mem_singleton.1 hm]
        trivial
    · intro x hx
      obtain ⟨c, -, rfl⟩ := Option.map_eq_some_iff.1 (Option.mem_toList.1 hx)
      rfl

theorem Guarded.quiet_finish (h : w.Guarded flag) (i : Nat) (upload : Bool) (s : Submission) :
    (w.finish i upload s).Quiet flag w.scripts := by
  have hr : w.Retains { w with uploads := w.uploads + s.uploads upload } := .of_eq rfl rfl rfl
  have hs := retains_setTile { w with uploads := w.uploads + s.uploads upload } i
    (f := (·.finish s)) fun t _ => .inr (t.onPresent_finish s)
  exact (hr.trans hs).quiet_of_nil h rfl rfl

theorem Guarded.quiet_arrive (h : w.Guarded flag) (i : Nat) (r : Vblank.Reading) :
    (w.arrive i r).Quiet flag w.scripts := by
  have hr := w.retains_setOutput i (·.mapLoop (·.enqueue r))
  rcases w.arrive_cases i r with ⟨he, -⟩ | he <;> rw [he]
  · exact hr.quiet_of_nil h rfl rfl
  · exact hr.quiet h (List.forall_mem_singleton.2 trivial) (List.forall_mem_nil _)

theorem Guarded.quiet_poll (h : w.Guarded flag) (i : Nat) :
    (w.poll i).Quiet flag w.scripts := by
  rcases w.poll_cases i with ⟨he, -⟩ | ⟨l, r, m, -, -, he⟩ <;> rw [he]
  · exact h.quiet_self .ok
  · have hr := w.retains_setOutput i (·.mapLoop fun _ => m)
    exact hr.quiet h (Task.forall_iteration (P := fun t => t.Guarded w.scripts false)
      (fun _ => trivial) trivial trivial r.items) (List.forall_mem_nil _)

/-- A flip that a loop forwards is a vblank. -/
theorem Guarded.quiet_item (h : w.Guarded flag) (i : Nat) (x : Vblank.Item) :
    (w.item i x).Quiet flag w.scripts := by
  rcases w.item_cases i x with ⟨log, he, -⟩ | ⟨l, f, log, -, -, ⟨-, he⟩ | ⟨call, -, he⟩⟩ <;> rw [he]
  · exact (Retains.refl w).quiet_of_nil h rfl rfl
  · exact (w.retains_setOutput i (·.mapLoop fun _ => (l.flip f).1)).quiet_of_nil h rfl rfl
  · have hr := w.retains_setOutput i (·.mapLoop fun _ => (l.flip f).1)
    have hq := (h.of_retains hr).quiet_vblank call.time
    exact ⟨hq.guarded, hq.scripts_le, hq.tasks, hq.events⟩

theorem Guarded.quiet_arm (h : w.Guarded flag) (i : Nat) : (w.arm i).Quiet flag w.scripts := by
  rcases w.arm_cases i with ⟨he, -⟩ | ⟨l, -, he⟩ <;> rw [he]
  · exact h.quiet_self .ok
  · exact (w.retains_setOutput i (·.mapLoop fun _ => l.arm.1)).quiet_of_nil h rfl rfl

/-- A listener for vsync or refresh is told something. -/
theorem Guarded.quiet_deliver (h : w.Guarded flag) {d : Delivery} (hn : d.notice.hotplug? = none)
    (hl : Hears w.scripts false d.listener) : (w.deliver d).Quiet flag w.scripts := by
  obtain ⟨tag, he⟩ := events_deliver hl
  refine (w.retains_deliver d).quiet h ?_ ?_
  · intro t ht
    rw [tasks_deliver] at ht
    exact Task.guarded_of_mem_perform (guarded_setOff hl) ht
  · rw [he]
    exact List.forall_mem_singleton.2 hn

/-- What tells no hotplug and reports none leads to nothing that does. -/
theorem Guarded.quiet_exec (h : w.Guarded flag) (mark : Nat) {t : Task}
    (ht : t.Guarded w.scripts false) : (w.exec mark t).Quiet flag w.scripts := by
  cases t with
  | perform op =>
    obtain ⟨hr, hg⟩ := ht
    have hq := h.quiet_begin mark (by simpa using hr) hg
    exact ⟨hq.guarded, hq.scripts_le,
      List.forall_mem_append.2 ⟨hq.tasks, List.forall_mem_singleton.2 trivial⟩, hq.events⟩
  | report op reply =>
    exact (Retains.refl w).quiet h (List.forall_mem_nil _) (List.forall_mem_singleton.2 rfl)
  | deliver d =>
    have hn := ht.hotplug?
    exact h.quiet_deliver hn (by rw [Task.hotplug?] at hn; simpa [hn] using ht.2)
  | leave =>
    have hr : w.Retains { w with delivering := w.delivering - 1 } := .of_eq rfl rfl rfl
    exact (hr.trans (retains_settle _)).quiet_of_nil h rfl rfl
  | endFrame =>
    have hr : w.Retains { w with presenting := w.presenting - 1 } := .of_eq rfl rfl rfl
    exact (hr.trans (retains_settle _)).quiet_of_nil h rfl rfl
  | dispatch i job => exact h.quiet_dispatch i job
  | work i => exact h.quiet_work i
  | finish i upload s => exact h.quiet_finish i upload s
  | await i =>
    have hr := w.retains_setTile i (f := fun t => { t with worker := t.worker.map Worker.wait })
      fun _ _ => .inr rfl
    exact hr.quiet_of_nil h rfl rfl
  | group m => exact h.quiet_self .ok
  | arrive i r => exact h.quiet_arrive i r
  | poll i => exact h.quiet_poll i
  | item i x => exact h.quiet_item i x
  | arm i => exact h.quiet_arm i

end Wall

end VideoWall
