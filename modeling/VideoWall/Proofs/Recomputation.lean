import VideoWall.Proofs.Decisions
import VideoWall.Proofs.Preference
import VideoWall.Proofs.Screens

/-! What the mode of a wall comes from.

    Two things revise the mode. When the outputs switch to a configuration, it is computed anew from
    all of them. When a frame begins and a hotplug has come in since the one before, only the
    preferred output is chosen anew, from the connected ones. `Derived` is the mode as it follows
    from these revisions, and `Wall.Brings.derived` says that the controller always has just that.

    So to switch to the active configuration again gives back the same mode but for the preferred
    output, and that one may be another: `Wall.Brings.reconfigure` says when, and
    `Wall.preferred_reconfigured` is a wall where it happens though no connection changes. -/

namespace VideoWall

/-- What can revise a mode: all outputs switch to a configuration, a hotplug is reported, or a frame
    begins on a fully powered wall while the outputs are connected as listed. -/
inductive Revision where
  | configure (config : Nat)
  | report
  | frame (plugged : List Bool)
  deriving DecidableEq

/-- The configuration that a revision makes the outputs switch to. -/
def Revision.config? : Revision → Option Nat
  | .configure config => some config
  | _ => none

/-- A mode and what it comes from: the screens of the outputs, the configuration, whether a frame
    has begun since the last report, and which outputs were connected when the preferred one was
    chosen, unless it was chosen from all of them. -/
structure Derived where
  screens : List Output
  config : Nat := 0
  mode : CompositeMode
  matched : Bool := false
  chosen : Option (List Bool) := none

namespace Derived

/-- A new wall has the mode of its outputs at configuration 0. -/
def start (outputs : List Output) : Derived where
  screens := outputs.map (·.screen)
  mode := .ofOutputs (outputs.map (·.mode 0))

/-- Every output with its refresh. -/
def refreshes (s : Derived) : List (Nat × Int) :=
  indexedRefreshes (s.screens.map (·.mode s.config))

/-- The connected outputs with their refreshes. -/
def refreshesOf (s : Derived) (plugged : List Bool) : List (Nat × Int) :=
  s.refreshes.filter fun x => plugged[x.1]? == some true

/-- The output that refreshes fastest, connected or not. -/
def fastest (s : Derived) : Nat := (preferredOutput s.refreshes).getD 0

/-- The mode after a revision. -/
def revise (s : Derived) : Revision → Derived
  | .configure config =>
    let screens := s.screens.map (·.setActiveConfig config)
    { s with screens, config, mode := .ofOutputs (screens.map (·.mode config)), chosen := none }
  | .report => { s with matched := false }
  | .frame plugged =>
    if s.matched then s
    else
      match preferredOutput (s.refreshesOf plugged) with
      | none => { s with matched := true }
      | some preferred =>
        { s with matched := true, mode := { s.mode with preferred }, chosen := some plugged }

/-- The mode of a wall after some revisions. -/
def of (outputs : List Output) (revisions : List Revision) : Derived :=
  revisions.foldl revise (start outputs)

theorem of_append (outputs : List Output) (rs ss : List Revision) :
    of outputs (rs ++ ss) = ss.foldl revise (of outputs rs) := List.foldl_append

theorem screens_revise (s : Derived) (r : Revision) :
    (s.revise r).screens =
      r.config?.elim s.screens fun config => s.screens.map (·.setActiveConfig config) := by
  cases r with
  | configure config => rfl
  | report => rfl
  | frame plugged =>
    rw [revise]
    split
    · rfl
    · split <;> rfl

end Derived

/-! ### What is noted -/

/-- How a demand on the controller revises the mode, if it does. -/
def Demand.revision? (c : Controller) (plugged : List Bool) : Demand → Option Revision
  | .configure config _ => some (.configure config)
  | .hotplug _ _ => some .report
  | .frame _ => if c.power.isOn then some (.frame plugged) else none
  | _ => none

namespace Wall

/-- How a task revises the mode, if it does. -/
def revision? (w : Wall) (t : Task) : Option Revision :=
  w.controller.bind fun c => (w.demand? t).bind (·.revision? c w.plugged)

/-- What a task adds to the revisions so far. -/
def revising (w : Wall) (t : Task) (revisions : List Revision) : List Revision :=
  revisions ++ (w.revision? t).toList

variable {w : Wall} {t : Task}

/-- Only an operation of the holder makes the outputs switch, and the mode that comes with it is
    that of all outputs, once they have switched. -/
theorem eq_setActiveConfig_of_demand? {config : Nat} {mode : CompositeMode}
    (h : w.demand? t = some (.configure config mode)) :
    t = .perform (.setActiveConfig config) ∧ w.held = true ∧
      mode = .ofOutputs ((w.screens.map (·.setActiveConfig config)).map (·.mode config)) := by
  obtain ⟨op, rfl⟩ := exists_perform_of_demand? h nofun
  cases op with
  | setActiveConfig config' =>
    obtain ⟨hh, he⟩ := Option.ite_none_right_eq_some.1 h
    cases he
    exact ⟨rfl, hh, congrArg _ (w.map_mode_setActiveConfig_screens config).symm⟩
  | _ => simp [demand?] at h

/-- A frame sees the connected outputs with their refreshes. -/
theorem refreshes_eq_of_demand? {refreshes : Nat → List (Nat × Int)}
    (h : w.demand? t = some (.frame refreshes)) : refreshes = w.refreshes := by
  obtain ⟨op, rfl⟩ := exists_perform_of_demand? h nofun
  cases op with
  | present layers upload =>
    obtain ⟨-, he⟩ := Option.ite_none_right_eq_some.1 h
    exact (Demand.frame.inj (Option.some.inj he)).symm
  | _ => simp [demand?] at h

/-- The screens switch just as the mode is revised. -/
theorem config?_revision? (w : Wall) (t : Task) :
    (w.revision? t).bind Revision.config? = w.configures? t := by
  by_cases ht : ∃ config, t = .perform (.setActiveConfig config)
  · obtain ⟨config, rfl⟩ := ht
    cases hh : w.held <;> cases hc : w.controller <;>
      simp [revision?, demand?, configures?, Demand.revision?, Revision.config?, hh, hc]
  · have hnone : w.configures? t = none := by
      cases t with
      | perform op =>
        cases op with
        | setActiveConfig config => exact absurd ⟨config, rfl⟩ ht
        | _ => rfl
      | _ => rfl
    rw [hnone, revision?, Option.bind_assoc, Option.bind_eq_none_iff]
    intro c _
    cases hd : w.demand? t with
    | none => rfl
    | some demand =>
      cases demand with
      | configure config mode => exact absurd ⟨config, (eq_setActiveConfig_of_demand? hd).1⟩ ht
      | frame refreshes => cases hp : c.power.isOn <;> simp [Demand.revision?, Revision.config?, hp]
      | _ => rfl

theorem refreshes_eq (w : Wall) (config : Nat) :
    w.refreshes config = (indexedRefreshes (w.screens.map (·.mode config))).filter
      fun x => w.plugged[x.1]? == some true := by
  rw [indexedRefreshes, screens, view, List.map_map, List.zipIdx_map, List.map_map,
    ← List.filterMap_eq_filter, List.filterMap_map, refreshes]
  refine List.filterMap_congr fun x hx => ?_
  have hget : w.plugged[x.2]? = some x.1.output.connected := by
    rw [plugged, List.getElem?_map, List.mem_zipIdx_iff_getElem?.1 hx]
    rfl
  have hrefresh : (x.1.output.screen.mode config).refresh =
      x.1.output.reportOrZero config .refreshRate := rfl
  cases hc : x.1.output.connected <;> simp [hc, hget, hrefresh, Option.guard]

end Wall

/-! ### The mode is derived -/

/-- The controller has the mode and the configuration, and knows whether a frame has begun since the
    last report. -/
structure Derived.IsOf (c : Controller) (s : Derived) : Prop where
  config_eq : c.activeConfig = s.config
  mode_eq : c.mode = s.mode
  stale_eq : c.stale = !s.matched

/-- The wall has the screens, and its controller the mode, as long as there is one. -/
structure Derived.Fits (w : Wall) (s : Derived) : Prop where
  screens_eq : w.screens = s.screens
  controller : ∀ c, w.controller = some c → s.IsOf c

namespace Derived

variable {s : Derived} {c c' : Controller} {w : Wall} {t : Task}

theorem IsOf.congr (h : s.IsOf c) (hconfig : c'.activeConfig = c.activeConfig)
    (hmode : c'.mode = c.mode) (hstale : c'.stale = c.stale) : s.IsOf c' :=
  ⟨hconfig.trans h.config_eq, hmode.trans h.mode_eq, hstale.trans h.stale_eq⟩

/-- A frame on a fully powered wall chooses the preferred output anew if a hotplug has come in. -/
theorem IsOf.frame (h : s.IsOf c) (hp : c.power.isOn = true) (plugged : List Bool) :
    (s.revise (.frame plugged)).IsOf (c.frame (s.refreshesOf plugged)) := by
  rw [Controller.frame, hp, h.stale_eq, revise]
  cases hm : s.matched with
  | true => exact h
  | false =>
    simp only [Bool.not_false, Bool.and_self, if_true, Bool.false_eq_true, if_false]
    cases preferredOutput (s.refreshesOf plugged) with
    | none => exact ⟨h.config_eq, h.mode_eq, rfl⟩
    | some preferred => exact ⟨h.config_eq, congrArg ({ · with preferred }) h.mode_eq, rfl⟩

theorem IsOf.hotplug (h : s.IsOf c) (outputs : Nat) (connected : Bool) :
    (s.revise .report).IsOf (c.hotplug outputs connected).1 := by
  rw [Controller.hotplug]
  generalize c.cycle.retarget outputs (c.vsyncEnabled && c.vsyncListener.isSome) = r
  dsimp only
  split <;> exact ⟨h.config_eq, h.mode_eq, rfl⟩

/-- A demand revises the mode as noted. -/
theorem Fits.meet (h : s.Fits w) (hc : w.controller = some c) {demand : Demand}
    (hd : w.demand? t = some demand) :
    ((demand.revision? c w.plugged).elim s s.revise).IsOf (demand.meet c).1 := by
  have hof := h.controller c hc
  cases demand with
  | configure config mode =>
    obtain ⟨-, -, rfl⟩ := Wall.eq_setActiveConfig_of_demand? hd
    exact ⟨rfl, by rw [h.screens_eq]; rfl, hof.stale_eq⟩
  | frame refreshes =>
    obtain rfl := Wall.refreshes_eq_of_demand? hd
    have hrefreshes : w.refreshes c.activeConfig = s.refreshesOf w.plugged := by
      rw [w.refreshes_eq, hof.config_eq, h.screens_eq]
      rfl
    rw [Demand.meet, hrefreshes, Demand.revision?]
    cases hp : c.power.isOn with
    | true => exact hof.frame hp w.plugged
    | false =>
      rw [Controller.frame, hp]
      exact hof
  | hotplug outputs connected => exact hof.hotplug outputs connected
  | control enabled =>
    rw [Demand.meet, Controller.control]
    split
    · exact hof
    · exact hof.congr rfl rfl rfl
  | listen channel listener display => cases channel <;> exact hof.congr rfl rfl rfl
  | vblank time =>
    rw [Demand.meet, Controller.vblank]
    split
    · exact hof.congr rfl rfl rfl
    · exact hof
  | power mode => exact hof.congr rfl rfl rfl
  | refresh => exact hof

/-- A step revises the mode as noted. -/
theorem Fits.exec (h : s.Fits w) (mark : Nat) {told : Option Delivery}
    (hd : (w.exec mark t).Decides w told (w.demand? t)) :
    ((w.revision? t).elim s s.revise).Fits (w.exec mark t).wall := by
  constructor
  · rw [w.screens_exec, ← w.config?_revision?, h.screens_eq]
    cases w.revision? t with
    | none => rfl
    | some r => exact (s.screens_revise r).symm
  · intro c' hc'
    obtain ⟨c, hc, rfl⟩ := hd.controller c' hc'
    rw [Wall.revision?, hc, Option.bind_some]
    cases hdem : w.demand? t with
    | none => exact h.controller c hc
    | some demand => exact h.meet hc hdem

end Derived

namespace Wall

variable {outputs : List Output} {policy : Policy} {n : Noted (List Revision)}

/-- The mode of a wall is always the one that follows from what has revised it. -/
theorem Brings.derived (h : (create outputs policy).Brings revising [] n) :
    (Derived.of outputs n.notes).Fits n.run.wall := by
  refine (h.deciding (P := fun w _ _ rs => (Derived.of outputs rs).Fits w) ?_ ?_ ?_ ?_ ?_ ?_).1
  · refine ⟨?_, ?_⟩
    · simp [screens, view, create, Derived.of, Derived.start]
    · rintro c ⟨⟩
      exact ⟨rfl, rfl, rfl⟩
  · exact fun _ _ _ _ hw => hw
  · exact fun _ _ _ _ _ _ hw => hw
  · exact fun _ _ _ _ hw => hw
  · intro w mark ts es rs hw
    have hnone : w.revision? (.group mark) = none := by
      rw [revision?, Option.bind_eq_none_iff]
      exact fun c _ => rfl
    rw [revising, hnone, Option.toList_none, List.append_nil]
    exact hw
  · intro w t ts es rs _ hd hw
    have hfits := hw.exec es.length hd
    rw [revising, Derived.of_append]
    cases hr : w.revision? t with
    | none =>
      rw [hr] at hfits
      exact hfits
    | some r =>
      rw [hr] at hfits
      exact hfits

end Wall

/-! ### To switch to the active configuration again -/

/-- A mode whose outputs show the configuration that it was computed for. Its preferred output is
    the fastest of those that it was chosen from. -/
structure Derived.Settled (s : Derived) : Prop where
  screens_eq : s.screens.map (·.setActiveConfig s.config) = s.screens
  mode_eq : ∃ preferred,
    s.mode = { CompositeMode.ofOutputs (s.screens.map (·.mode s.config)) with preferred }
  of_all : s.chosen = none → s.mode.preferred = s.fastest
  of_some : ∀ plugged, s.chosen = some plugged →
    preferredOutput (s.refreshesOf plugged) = some s.mode.preferred

namespace Derived

variable {s : Derived} {outputs : List Output}

theorem settled_configure (s : Derived) (config : Nat) :
    (s.revise (.configure config)).Settled where
  screens_eq := by
    rw [revise, List.map_map]
    exact List.map_congr_left fun o _ => o.setActiveConfig_setActiveConfig config
  mode_eq := ⟨_, rfl⟩
  of_all := fun _ => rfl
  of_some := nofun

/-- Revisions keep a settled mode settled. -/
theorem Settled.revise (h : s.Settled) (r : Revision) : (s.revise r).Settled := by
  cases r with
  | configure config => exact s.settled_configure config
  | report => exact ⟨h.screens_eq, h.mode_eq, h.of_all, h.of_some⟩
  | frame plugged =>
    rw [Derived.revise]
    split
    · exact h
    · cases hp : preferredOutput (s.refreshesOf plugged) with
      | none => exact ⟨h.screens_eq, h.mode_eq, h.of_all, h.of_some⟩
      | some preferred =>
        obtain ⟨old, hmode⟩ := h.mode_eq
        refine ⟨h.screens_eq, ⟨preferred, congrArg ({ · with preferred }) hmode⟩, nofun, ?_⟩
        rintro _ ⟨⟩
        exact hp

theorem Settled.foldl (h : s.Settled) (rs : List Revision) :
    (rs.foldl Derived.revise s).Settled := by
  induction rs generalizing s with
  | nil => exact h
  | cons r rs ih => exact ih (h.revise r)

theorem mode_start (outputs : List Output) :
    (start outputs).mode = .ofOutputs ((start outputs).screens.map (·.mode 0)) := by
  refine congrArg CompositeMode.ofOutputs ?_
  rw [start, List.map_map]
  exact List.map_congr_left fun o _ => (o.mode_screen 0).symm

theorem settled_start (h : ∀ o ∈ outputs, o.setActiveConfig 0 = o) :
    (start outputs).Settled := by
  have hmode := mode_start outputs
  refine ⟨?_, ⟨_, hmode⟩, fun _ => congrArg (·.preferred) hmode, fun _ hc => by cases hc⟩
  rw [start, List.map_map]
  refine List.map_congr_left fun o ho => ?_
  rw [Function.comp_apply, ← o.screen_setActiveConfig, h o ho]

/-- The mode is settled once the outputs have been told to switch, and from the start if they show
    configuration 0 by then. -/
theorem settled_of {rs : List Revision}
    (h : (∀ o ∈ outputs, o.setActiveConfig 0 = o) ∨ ∃ config, .configure config ∈ rs) :
    (Derived.of outputs rs).Settled := by
  rcases h with hshown | ⟨config, hmem⟩
  · exact (settled_start hshown).foldl rs
  · obtain ⟨before, after, rfl⟩ := List.append_of_mem hmem
    rw [of_append, List.foldl_cons]
    exact (settled_configure _ config).foldl after

/-- A frame changes nothing unless a hotplug has come in. -/
theorem foldl_frames (h : s.matched = true) (frames : List (List Bool)) :
    (frames.map .frame).foldl revise s = s := by
  induction frames with
  | nil => rfl
  | cons plugged frames ih =>
    rw [List.map_cons, List.foldl_cons, revise, if_pos h]
    exact ih

/-- To switch to the configuration again makes the fastest of all outputs the preferred one. -/
theorem Settled.mode_revise (h : s.Settled) :
    (s.revise (.configure s.config)).mode = { s.mode with preferred := s.fastest } := by
  obtain ⟨preferred, hmode⟩ := h.mode_eq
  rw [hmode, Derived.revise, h.screens_eq]
  rfl

/-- The preferred output is the fastest of all unless that one was not there to choose from. -/
theorem Settled.preferred_eq_iff (h : s.Settled) :
    s.mode.preferred = s.fastest ↔
      ∀ plugged, s.chosen = some plugged → plugged[s.fastest]? = some true := by
  cases hc : s.chosen with
  | none => exact ⟨fun _ => nofun, fun _ => h.of_all hc⟩
  | some plugged =>
    have hsome := h.of_some plugged hc
    obtain ⟨i, hi⟩ := Option.isSome_iff_exists.1 (isSome_preferredOutput_of_filter hsome)
    have hfastest : s.fastest = i := by
      rw [fastest, hi]
      rfl
    rw [hfastest, preferredOutput_filter_eq_iff (q := fun k => plugged[k]? == some true) hsome hi,
      beq_iff_eq]
    exact ⟨fun hq _ hp => Option.some.inj hp ▸ hq, fun hq => hq plugged rfl⟩

end Derived

namespace Wall

variable {outputs : List Output} {policy : Policy} {n n' : Noted (List Revision)}
  {c c' : Controller}

/-- When no hotplug has come in since the last frame, to switch to the active configuration again,
    with any frames after that, makes the mode that of all outputs, connected or not. If they showed
    that configuration before, the mode stays as it was but for the preferred output, which becomes
    the fastest of all. So it stays the same mode exactly if the fastest output was among those that
    the preferred one was last chosen from. -/
theorem Brings.reconfigure (h : (create outputs policy).Brings revising [] n)
    (h' : (create outputs policy).Brings revising [] n') (hc : n.run.wall.controller = some c)
    (hc' : n'.run.wall.controller = some c') (hs : c.stale = false) (frames : List (List Bool))
    (hn : n'.notes = n.notes ++ .configure c.activeConfig :: frames.map .frame) :
    let config := c.activeConfig
    let fastest :=
      (preferredOutput (indexedRefreshes (n.run.wall.outputs.map (·.mode config)))).getD 0
    c'.activeConfig = config ∧
      c'.mode = .ofOutputs
        (n.run.wall.outputs.map fun o => (o.setActiveConfig config).mode config) ∧
      ((∀ o ∈ outputs, o.setActiveConfig 0 = o) ∨ (∃ k, .configure k ∈ n.notes) →
        c'.mode = { c.mode with preferred := fastest } ∧
        (c'.mode = c.mode ↔ ∀ plugged, (Derived.of outputs n.notes).chosen = some plugged →
          plugged[fastest]? = some true)) := by
  intro config fastest
  have hfits := h.derived
  have hof := hfits.controller c hc
  have hof' := h'.derived.controller c' hc'
  have hmatched : (Derived.of outputs n.notes).matched = true := by
    have hstale := hof.stale_eq
    rwa [hs, eq_comm, Bool.not_eq_false'] at hstale
  rw [hn, Derived.of_append, List.foldl_cons, hof.config_eq,
    Derived.foldl_frames (s := (Derived.of outputs n.notes).revise (.configure _)) hmatched] at hof'
  have hfastest : fastest = (Derived.of outputs n.notes).fastest := by
    rw [Derived.fastest, Derived.refreshes, ← hfits.screens_eq, map_mode_screens, ← hof.config_eq]
  refine ⟨hof'.config_eq.trans hof.config_eq.symm, ?_, fun hin => ?_⟩
  · have hconfig : config = (Derived.of outputs n.notes).config := hof.config_eq
    rw [hof'.mode_eq, ← map_mode_setActiveConfig_screens, hfits.screens_eq, hconfig]
    rfl
  · have hsettled := Derived.settled_of hin
    have hmode : c'.mode = { c.mode with preferred := fastest } := by
      rw [hof'.mode_eq, hsettled.mode_revise, hof.mode_eq, hfastest]
    refine ⟨hmode, ?_⟩
    rw [hmode, hfastest, ← hsettled.preferred_eq_iff, hof.mode_eq]
    constructor
    · exact fun he => (congrArg (·.preferred) he).symm
    · intro he
      rw [← he]

/-- Two outputs with one configuration each; the first one refreshes faster. -/
def uneven : List Output :=
  [{ configs := [⟨100, 50, some 60, none, none⟩] }, { configs := [⟨100, 50, some 30, none, none⟩] }]

/-- What becomes of them by some operations. -/
def fromUneven (ops : List Op) : Noted (List Revision) :=
  ops.foldl (Noted.perform revising) ⟨(create uneven {}).resting, []⟩

/-- And once they have switched to the configuration that they show already, with a frame after
    that. -/
def switchedAgain (ops : List Op) : Noted (List Revision) :=
  fromUneven (ops ++ [.setActiveConfig 0, .present [] false])

/-- The slower output is unplugged, and a frame follows. -/
def dimmed : List Op :=
  [.change 1 { connected := some false } none, .hotplugUpdate false, .setPowerMode .on,
    .present [] false]

/-- The fastest output is still there, so the mode stays. -/
theorem reconfigure_dimmed :
    ∃ c c', (create uneven {}).Brings revising [] (fromUneven dimmed) ∧
      (create uneven {}).Brings revising [] (switchedAgain dimmed) ∧
      (fromUneven dimmed).run.wall.controller = some c ∧
      (switchedAgain dimmed).run.wall.controller = some c' ∧
      c.stale = false ∧ (fromUneven dimmed).notes = [.report, .frame [true, false]] ∧
      (switchedAgain dimmed).notes =
        (fromUneven dimmed).notes ++ .configure c.activeConfig :: [[true, false]].map .frame ∧
      c'.mode = c.mode := by
  have h : (create uneven {}).Brings revising [] (fromUneven dimmed) := by
    refine (((Brings.start.perform rfl _).perform ?_ _).perform ?_ _).perform ?_ _
    all_goals decide +kernel
  have h' : (create uneven {}).Brings revising [] (switchedAgain dimmed) := by
    refine (h.perform ?_ (.setActiveConfig 0)).perform ?_ (.present [] false)
    all_goals decide +kernel
  have hsome : (fromUneven dimmed).run.wall.controller.map (fun c => (c.activeConfig, c.stale)) =
      some (0, false) := by decide +kernel
  have hsome' : (switchedAgain dimmed).run.wall.controller.isSome = true := by decide +kernel
  obtain ⟨c, hc, he⟩ := Option.map_eq_some_iff.1 hsome
  obtain ⟨hconfig, hs⟩ := Prod.mk.inj he
  obtain ⟨c', hc'⟩ := Option.isSome_iff_exists.1 hsome'
  have hnotes : (fromUneven dimmed).notes = [.report, .frame [true, false]] := by decide +kernel
  have hn : (switchedAgain dimmed).notes =
      (fromUneven dimmed).notes ++ .configure c.activeConfig :: [[true, false]].map .frame := by
    rw [hconfig]
    decide +kernel
  obtain ⟨-, -, hmode⟩ := h.reconfigure h' hc hc' hs [[true, false]] hn
  refine ⟨c, c', h, h', hc, hc', hs, hnotes, hn, ((hmode (.inl (by decide))).2).2 ?_⟩
  have hchosen : (Derived.of uneven (fromUneven dimmed).notes).chosen = some [true, false] := by
    decide +kernel
  intro plugged hp
  obtain rfl := Option.some.inj (hchosen.symm.trans hp)
  rw [hconfig]
  decide +kernel

/-- The faster output is unplugged, and a frame follows. -/
def outshone : List Op :=
  [.change 0 { connected := some false } none, .hotplugUpdate false, .setPowerMode .on,
    .present [] false]

/-- Though no connection has changed since the frame, another output is preferred once the outputs
    have switched to the configuration that they show already, and stays so when another frame
    follows. -/
theorem preferred_reconfigured :
    (fromUneven outshone).run.wall.controller.map (fun c => (c.activeConfig, c.stale, c.mode)) =
        some (0, false, ⟨200, 50, 45, 0, 0, 1⟩) ∧
      (fromUneven (outshone ++ [.setActiveConfig 0])).run.wall.controller.map (·.mode) =
        some ⟨200, 50, 45, 0, 0, 0⟩ ∧
      (switchedAgain outshone).run.wall.controller.map (·.mode) =
        some ⟨200, 50, 45, 0, 0, 0⟩ := by
  decide +kernel

end Wall

end VideoWall
