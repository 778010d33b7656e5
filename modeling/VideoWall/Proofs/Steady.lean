import VideoWall.Proofs.Ordinary
import VideoWall.Proofs.Staff

/-! Walls that ordinary operations leave steady.

    A steady wall has a controller that was told which outputs are connected, as far as it was, and
    no script that is about connections. Every operation of the host or of an output is a function
    from the wall to an effect; the effects of ordinary ones are calm, so they leave the wall steady
    and nothing to do that tells a hotplug. -/

namespace VideoWall

/-! ### Cycles -/

/-- As many timestamps are awaited as outputs take part, or fewer, but at least one if there are
    any outputs. -/
structure Vsync.Cycle.Sound (c : Vsync.Cycle) : Prop where
  awaited_le : c.awaited ≤ c.divisor
  awaited_pos : 0 < c.divisor → 0 < c.awaited

namespace Vsync.Cycle

theorem sound_fresh (outputs : Nat) : (fresh outputs).Sound := ⟨Nat.le_refl _, id⟩

theorem sound_observe {c : Cycle} (h : c.Sound) (t : Int) :
    (c.observe t).1.Sound ∧ (c.observe t).1.divisor = c.divisor := by
  rw [observe]
  split
  · exact ⟨h, rfl⟩
  · dsimp only
    split
    · exact ⟨sound_fresh _, rfl⟩
    · next hw =>
      have hle := h.awaited_le
      exact ⟨⟨by show c.awaited - 1 ≤ c.divisor; omega, fun _ => Nat.pos_of_ne_zero hw⟩, rfl⟩

end Vsync.Cycle

/-! ### The controller -/

/-- A controller that has told its host `flag`, averages over `divisor` outputs, and has a hotplug
    listener among the first `listeners` ones. -/
structure Controller.Watched (flag : Bool) (divisor listeners : Nat) (c : Controller) : Prop where
  connected_eq : c.connected = flag
  divisor_eq : c.cycle.divisor = divisor
  sound : c.cycle.Sound
  listener_lt : ∃ n, c.hotplugListener = some n ∧ n < listeners

namespace Controller

variable {flag : Bool} {divisor listeners : Nat} {c : Controller}

theorem Watched.mono (h : c.Watched flag divisor listeners) {more : Nat} (hle : listeners ≤ more) :
    c.Watched flag divisor more := by
  obtain ⟨n, hn, hlt⟩ := h.listener_lt
  exact ⟨h.connected_eq, h.divisor_eq, h.sound, n, hn, Nat.lt_of_lt_of_le hlt hle⟩

/-- Only the connection state, the cycle and the hotplug listener matter. -/
theorem Watched.congr (h : c.Watched flag divisor listeners) {d : Controller}
    (hc : d.connected = c.connected) (hy : d.cycle = c.cycle)
    (hl : d.hotplugListener = c.hotplugListener) : d.Watched flag divisor listeners := by
  refine ⟨hc.trans h.connected_eq, ?_, ?_, ?_⟩
  · rw [hy]; exact h.divisor_eq
  · rw [hy]; exact h.sound
  · rw [hl]; exact h.listener_lt

theorem Watched.control (h : c.Watched flag divisor listeners) (enabled : Bool) :
    (c.control enabled).Watched flag divisor listeners := by
  rw [Controller.control]
  split
  · exact h
  · exact ⟨h.connected_eq, h.divisor_eq, Vsync.Cycle.sound_fresh _, h.listener_lt⟩

/-- A vblank moves the cycle on and tells vsyncs alone. -/
theorem Watched.vblank (h : c.Watched flag divisor listeners) (t : Int) :
    (c.vblank t).1.Watched flag divisor listeners ∧
      ∀ d ∈ (c.vblank t).2, d.notice.hotplug? = none := by
  rw [Controller.vblank]
  split
  · obtain ⟨hs, hd⟩ := Vsync.Cycle.sound_observe h.sound t
    refine ⟨⟨h.connected_eq, hd.trans h.divisor_eq, hs, h.listener_lt⟩, ?_⟩
    intro d hd
    rcases List.mem_map.1 hd with ⟨m, -, rfl⟩
    rfl
  · exact ⟨h, List.forall_mem_nil _⟩

theorem hotplug?_of_mem_refresh {d : Delivery} (hd : d ∈ c.refresh) : d.notice.hotplug? = none := by
  rw [refresh] at hd
  split at hd
  · obtain ⟨m, -, rfl⟩ := List.mem_map.1 hd
    rfl
  · cases hd

end Controller

/-! ### Walls and what is left to do -/

/-- A wall that the host holds, with `plugged` saying which outputs are connected, a watched
    controller, and no script that is about connections. -/
structure Wall.Steady (plugged : List Bool) (flag : Bool) (divisor : Nat) (w : Wall) : Prop where
  held : w.held = true
  plugged_eq : w.plugged = plugged
  scripts : ∀ l ∈ w.listeners, Op.areOrdinary l.script = true
  onPresent : ∀ t ∈ w.tiles, Op.areOrdinary t.onPresent = true
  controller : ∃ c, w.controller = some c ∧ c.Watched flag divisor w.listeners.length

/-- A task that performs an ordinary operation, tells a hotplug to a listener that is there, or is
    about something else. -/
def Task.Fits (listeners : Nat) : Task → Prop
  | .perform op => op.isOrdinary = true
  | .deliver d => d.notice.hotplug? ≠ none → d.listener < listeners
  | _ => True

/-- A task that performs an ordinary operation, if any, and tells no hotplug. -/
def Task.isOrdinary : Task → Bool
  | .perform op => op.isOrdinary
  | .deliver d => d.notice.hotplug?.isNone
  | _ => true

namespace Task

theorem fits_of_isOrdinary {t : Task} (h : t.isOrdinary = true) (listeners : Nat) :
    t.Fits listeners := by
  cases t with
  | perform op => exact h
  | deliver d => exact fun hd => absurd (Option.isNone_iff_eq_none.1 h) hd
  | _ => trivial

theorem hotplug?_of_isOrdinary {t : Task} (h : t.isOrdinary = true) : t.hotplug? = none := by
  cases t with
  | deliver d => exact Option.isNone_iff_eq_none.1 h
  | _ => rfl

theorem Fits.mono {t : Task} {n m : Nat} (h : t.Fits n) (hle : n ≤ m) : t.Fits m := by
  cases t with
  | deliver d => exact fun hd => Nat.lt_of_lt_of_le (h hd) hle
  | perform op => exact h
  | _ => trivial

end Task

/-- What a step from a wall with `listeners` listeners comes to: a steady wall that has lost no
    listener, tasks that fit it, and `told` as what was told or is about to be. -/
structure Effect.Calm (plugged : List Bool) (flag : Bool) (divisor listeners : Nat)
    (told : List Bool) (e : Effect) : Prop where
  steady : e.wall.Steady plugged flag divisor
  listeners_le : listeners ≤ e.wall.listeners.length
  fits : ∀ t ∈ e.tasks, t.Fits e.wall.listeners.length
  told_eq : Event.hotplugs e.events ++ Task.hotplugs e.tasks = told

section

variable {plugged : List Bool} {flag : Bool} {divisor : Nat} {w : Wall}

/-- A step that leaves ordinary tasks and tells no hotplug. -/
theorem Effect.calm_of_ordinary {e : Effect} {listeners : Nat}
    (h : e.wall.Steady plugged flag divisor) (hl : listeners ≤ e.wall.listeners.length)
    (ht : ∀ t ∈ e.tasks, t.isOrdinary = true) (he : ∀ x ∈ e.events, x.hotplug? = none) :
    e.Calm plugged flag divisor listeners [] where
  steady := h
  listeners_le := hl
  fits := fun t htm => Task.fits_of_isOrdinary (ht t htm) _
  told_eq := by
    rw [Event.hotplugs_eq_nil he,
      Task.hotplugs_eq_nil fun t htm => Task.hotplug?_of_isOrdinary (ht t htm)]
    rfl

namespace Wall

/-- A wall that differs in its tiles is as steady if they keep their connections and scripts. -/
theorem Steady.of_tiles (h : w.Steady plugged flag divisor) {v : Wall} (hh : v.held = w.held)
    (hc : v.controller = w.controller) (hl : v.listeners = w.listeners)
    (hp : v.plugged = w.plugged) (ho : ∀ t ∈ v.tiles, Op.areOrdinary t.onPresent = true) :
    v.Steady plugged flag divisor where
  held := hh.trans h.held
  plugged_eq := hp.trans h.plugged_eq
  scripts := by rw [hl]; exact h.scripts
  onPresent := ho
  controller := by rw [hc, hl]; exact h.controller

/-- Another watched controller may take the place of the one there is. -/
theorem Steady.setController (h : w.Steady plugged flag divisor) {c : Controller}
    (hc : c.Watched flag divisor w.listeners.length) :
    { w with controller := some c }.Steady plugged flag divisor :=
  ⟨h.held, h.plugged_eq, h.scripts, h.onPresent, c, rfl, hc⟩

theorem Steady.onPresent_setTile (h : w.Steady plugged flag divisor) (i : Nat) {f : Tile → Tile}
    (ho : ∀ t, w.tiles[i]? = some t → Op.areOrdinary t.onPresent = true →
      Op.areOrdinary (f t).onPresent = true) :
    ∀ t ∈ (w.setTile i f).tiles, Op.areOrdinary t.onPresent = true := by
  intro t ht
  obtain ⟨u, hmem, rfl | ⟨hu, rfl⟩⟩ := exists_of_mem_setTile ht
  · exact h.onPresent t hmem
  · exact ho u hu (h.onPresent u hmem)

/-- One tile may change as long as its connection stays and its script is ordinary. -/
theorem Steady.setTile (h : w.Steady plugged flag divisor) (i : Nat) {f : Tile → Tile}
    (hp : ∀ t, w.tiles[i]? = some t → (f t).output.connected = t.output.connected)
    (ho : ∀ t, w.tiles[i]? = some t → Op.areOrdinary t.onPresent = true →
      Op.areOrdinary (f t).onPresent = true) :
    (w.setTile i f).Steady plugged flag divisor :=
  h.of_tiles rfl rfl rfl (plugged_setTile w i hp) (h.onPresent_setTile i ho)

theorem Steady.setOutput (h : w.Steady plugged flag divisor) (i : Nat) {f : Output → Output}
    (hp : ∀ o, (f o).connected = o.connected) :
    (w.setOutput i f).Steady plugged flag divisor :=
  h.setTile i (fun t _ => hp t.output) fun _ _ ht => ht

theorem Steady.setOutputs (h : w.Steady plugged flag divisor) {f : Output → Output}
    (hp : ∀ o, (f o).connected = o.connected) :
    (w.setOutputs f).Steady plugged flag divisor := by
  refine h.of_tiles rfl rfl rfl (plugged_setOutputs w hp) ?_
  intro t ht
  obtain ⟨u, hu, rfl⟩ := List.mem_map.1 ht
  exact h.onPresent u hu

/-! ### Calls on the controller -/

/-- The holder of a steady wall finds a watched controller to call. -/
theorem Steady.exists_asHolder (h : w.Steady plugged flag divisor) :
    ∃ c, c.Watched flag divisor w.listeners.length ∧ w.controller = some c ∧
      ∀ f, w.asHolder f = f c := by
  obtain ⟨c, hc, hw⟩ := h.controller
  refine ⟨c, hw, hc, ?_⟩
  intro f
  rw [asHolder, h.held, hc]

/-- A call that decides on no hotplug. -/
theorem Steady.calm_enter (h : w.Steady plugged flag divisor)
    {decide : Controller → Controller × List Delivery}
    (hd : ∀ c, c.Watched flag divisor w.listeners.length →
      (decide c).1.Watched flag divisor w.listeners.length ∧
        ∀ d ∈ (decide c).2, d.notice.hotplug? = none) :
    (w.enter decide).Calm plugged flag divisor w.listeners.length [] := by
  obtain ⟨c, hc, hw⟩ := h.controller
  obtain ⟨hw', hn⟩ := hd c hw
  rw [enter, hc]
  refine Effect.calm_of_ordinary ?_ (Nat.le_refl _) ?_ (List.forall_mem_nil _)
  · exact ⟨h.held, h.plugged_eq, h.scripts, h.onPresent, _, rfl, hw'⟩
  · intro t ht
    rcases List.mem_append.1 ht with ht | ht
    · obtain ⟨d, hd, rfl⟩ := List.mem_map.1 ht
      exact Option.isNone_iff_eq_none.2 (hn d hd)
    · rw [List.mem_singleton.1 ht]; rfl

theorem Steady.calm_enter_vblank (h : w.Steady plugged flag divisor) (t : Int) :
    (w.enter (·.vblank t)).Calm plugged flag divisor w.listeners.length [] :=
  h.calm_enter fun _ hc => hc.vblank t

theorem Steady.calm_enter_refresh (h : w.Steady plugged flag divisor) :
    (w.enter fun c => (c, c.refresh)).Calm plugged flag divisor w.listeners.length [] :=
  h.calm_enter fun _ hc => ⟨hc, fun _ hd => Controller.hotplug?_of_mem_refresh hd⟩

/-- A step that changes nothing. -/
theorem Steady.calm_self (h : w.Steady plugged flag divisor) {e : Effect} (hw : e.wall = w)
    (ht : e.tasks = []) (he : e.events = []) :
    e.Calm plugged flag divisor w.listeners.length [] := by
  refine Effect.calm_of_ordinary (hw ▸ h) (Nat.le_of_eq (by rw [hw])) ?_ ?_
  · rw [ht]; exact fun t ht => by cases ht
  · rw [he]; exact (List.forall_mem_nil _)

theorem hotplug?_of_mem_callAll {call : OutputCall} {x : Event} (hx : x ∈ w.callAll call) :
    x.hotplug? = none := by
  obtain ⟨i, -, rfl⟩ := List.mem_map.1 hx
  rfl

theorem Steady.calm_through (h : w.Steady plugged flag divisor) (registered : Bool)
    {decide : Controller → Controller × List Delivery}
    (he : (w.enter decide).Calm plugged flag divisor w.listeners.length []) :
    (w.through registered decide).Calm plugged flag divisor w.listeners.length [] := by
  rcases w.through_cases registered decide with ⟨-, ht⟩ | ⟨-, ht⟩ <;> rw [ht]
  · exact he
  · exact h.calm_self rfl rfl rfl

/-! ### Operations of the holder -/

variable {c : Controller}

theorem Steady.calm_setActiveConfig (h : w.Steady plugged flag divisor)
    (hc : c.Watched flag divisor w.listeners.length) (config : Nat) :
    (w.setActiveConfig c config).Calm plugged flag divisor w.listeners.length [] := by
  have ho := h.setOutputs (f := (·.setActiveConfig config)) fun o => by simp
  exact Effect.calm_of_ordinary
    (ho.setController (hc.congr rfl rfl rfl)) (Nat.le_refl _)
    (List.forall_mem_nil _) fun x hx => hotplug?_of_mem_callAll hx

theorem Steady.calm_setPowerMode (h : w.Steady plugged flag divisor)
    (hc : c.Watched flag divisor w.listeners.length) (mode : PowerMode) :
    (w.setPowerMode c mode).Calm plugged flag divisor w.listeners.length [] := by
  have ho := h.setOutputs (f := (·.setPowerMode mode)) fun o => by simp
  exact Effect.calm_of_ordinary
    (ho.setController (hc.congr rfl rfl rfl)) (Nat.le_refl _)
    (List.forall_mem_nil _) fun x hx => hotplug?_of_mem_callAll hx

theorem Steady.calm_control (h : w.Steady plugged flag divisor)
    (hc : c.Watched flag divisor w.listeners.length) (enabled : Bool) :
    (w.control c enabled).Calm plugged flag divisor w.listeners.length [] := by
  rw [control]
  split
  · exact h.calm_self rfl rfl rfl
  · have ho := h.setOutputs (f := (·.control enabled)) fun o => by simp
    exact Effect.calm_of_ordinary (ho.setController (hc.control enabled)) (Nat.le_refl _)
      (List.forall_mem_nil _) fun x hx => hotplug?_of_mem_callAll hx

/-- A new listener may be one for hotplugs, which takes the place of the one before it. -/
theorem Steady.calm_listen (h : w.Steady plugged flag divisor)
    (hc : c.Watched flag divisor w.listeners.length) (channel : Channel) (display : DisplayId)
    {l : Listener} (hl : Op.areOrdinary l.script = true) :
    (w.listen c channel display l).Calm plugged flag divisor w.listeners.length [] := by
  have ho := h.setOutputs (f := (·.register channel)) fun o => by simp
  have hlen : (w.listeners ++ [l]).length = w.listeners.length + 1 := by simp
  have hmono := hc.mono (Nat.le_succ w.listeners.length)
  refine Effect.calm_of_ordinary ?_ ?_ (List.forall_mem_nil _) ?_
  · refine ⟨h.held, ho.plugged_eq, ?_, ho.onPresent, _, rfl, ?_⟩
    · intro m hm
      rcases List.mem_append.1 hm with hm | hm
      · exact h.scripts m hm
      · rw [List.mem_singleton.1 hm]; exact hl
    · show Controller.Watched flag divisor (w.listeners ++ [l]).length _
      rw [hlen]
      cases channel with
      | vsync => exact hmono.congr rfl rfl rfl
      | refresh => exact hmono.congr rfl rfl rfl
      | hotplug =>
        exact ⟨hmono.connected_eq, hmono.divisor_eq, hmono.sound, _, rfl, Nat.lt_succ_self _⟩
  · show w.listeners.length ≤ (w.listeners ++ [l]).length
    omega
  · intro x hx
    obtain ⟨i, hi, rfl⟩ := List.mem_mapIdx.1 hx
    rfl

/-- Matching workers with outputs concerns neither connections nor scripts. -/
theorem Steady.reconcile (h : w.Steady plugged flag divisor)
    (hc : c.Watched flag divisor w.listeners.length) :
    (w.reconcile c).Steady plugged flag divisor ∧ (w.reconcile c).listeners = w.listeners := by
  rw [Wall.reconcile]
  split
  · have ht : { w with tiles := w.tiles.mapIdx fun i t => Tile.reconcile t i }.Steady
        plugged flag divisor := by
      refine h.of_tiles rfl rfl rfl w.plugged_mapIdx_reconcile ?_
      intro t ht
      obtain ⟨i, hi, rfl⟩ := List.mem_mapIdx.1 ht
      rw [Tile.onPresent_reconcile]
      exact h.onPresent _ (List.getElem_mem hi)
    exact ⟨ht.setController (hc.congr rfl rfl rfl), rfl⟩
  · exact ⟨h, rfl⟩

theorem isOrdinary_of_mem_schedule {p : Pipeline} {jobs : List (Nat × Job)} {t : Task}
    (h : t ∈ schedule p jobs) : t.isOrdinary = true := by
  obtain ⟨i, hi⟩ := exists_tile_of_mem_schedule h
  cases t <;> first | rfl | cases hi

theorem Steady.calm_present (h : w.Steady plugged flag divisor)
    (hc : c.Watched flag divisor w.listeners.length) (layers : List Layer) (upload : Bool)
    (mark : Nat) :
    (w.present c layers upload mark).Calm plugged flag divisor w.listeners.length [] := by
  obtain ⟨hr, hl⟩ := h.reconcile hc
  rw [present]
  split
  · refine Effect.calm_of_ordinary ?_ (Nat.le_of_eq (congrArg List.length hl.symm)) ?_
      (List.forall_mem_nil _)
    · exact hr.of_tiles rfl rfl rfl rfl hr.onPresent
    · intro t ht
      rcases List.mem_append.1 ht with ht | ht
      · rcases List.mem_append.1 ht with ht | ht
        · exact isOrdinary_of_mem_schedule ht
        · split at ht
          · cases ht
          · rw [List.mem_singleton.1 ht]; rfl
      · rw [List.mem_singleton.1 ht]; rfl
  · exact h.calm_self rfl rfl rfl

/-- A silent change that leaves the connection alone, with a new script or without. -/
theorem Steady.calm_change (h : w.Steady plugged flag divisor) (i : Nat) {change : OutputChange}
    {onPresent : Option (List Op)} (hc : change.connected = none)
    (ho : Op.areOrdinaryOf onPresent = true) (mark : Nat) :
    (w.begin mark (.change i change onPresent)).Calm plugged flag divisor w.listeners.length
      [] := by
  have hs : (w.setOutput i (·.change change)).Steady plugged flag divisor :=
    h.setOutput i fun o => by simp [Output.change, hc]
  cases onPresent with
  | none => exact hs.calm_self rfl rfl rfl
  | some script =>
    exact Effect.calm_of_ordinary (hs.setTile i (fun _ _ => rfl) fun _ _ _ => ho) (Nat.le_refl _)
      (List.forall_mem_nil _) (List.forall_mem_nil _)

/-- An ordinary operation keeps a wall steady and tells no hotplug. -/
theorem Steady.calm_begin (h : w.Steady plugged flag divisor) {op : Op}
    (hop : op.isOrdinary = true) (mark : Nat) :
    (w.begin mark op).Calm plugged flag divisor w.listeners.length [] := by
  obtain ⟨c, hc, -, has⟩ := h.exists_asHolder
  cases op with
  | setActiveConfig config => rw [begin, has]; exact h.calm_setActiveConfig hc config
  | setPowerMode mode => rw [begin, has]; exact h.calm_setPowerMode hc mode
  | control enabled => rw [begin, has]; exact h.calm_control hc enabled
  | vsyncUpdate time => rw [begin, has]; exact h.calm_enter_vblank time
  | hotplugUpdate connected => rw [Op.isOrdinary] at hop; cases hop
  | refreshUpdate => rw [begin, has]; exact h.calm_enter_refresh
  | listen channel display tag script limit =>
    rw [Op.isOrdinary] at hop
    rw [begin, has]
    exact h.calm_listen hc channel display hop
  | present layers upload => rw [begin, has]; exact h.calm_present hc layers upload mark
  | ask question => rw [begin, has]; exact h.calm_self rfl rfl rfl
  | vblank i time force => exact h.calm_through _ (h.calm_enter_vblank time)
  | plug i connected => rw [Op.isOrdinary] at hop; cases hop
  | requestRefresh i => exact h.calm_through _ h.calm_enter_refresh
  | change i c onPresent =>
    rw [Op.isOrdinary, Bool.and_eq_true, Option.isNone_iff_eq_none] at hop
    exact h.calm_change i hop.1 hop.2 mark
  | feed i readings =>
    refine Effect.calm_of_ordinary h (Nat.le_refl _) ?_ (List.forall_mem_nil _)
    intro t ht
    obtain ⟨r, -, rfl⟩ := List.mem_map.1 ht
    rfl
  | drop => rw [Op.isOrdinary] at hop; cases hop

end Wall

end

end VideoWall
