import VideoWall.Proofs.Recomputation

/-! Which configuration the mode of a wall describes.

    An output reports its refresh and densities at any configuration, but its size only as it is
    now. So what it contributes to the mode of the wall is a blend: `Output.blend`. The two parts
    belong to one configuration if the output shows the one that is asked for, and that depends on
    what it showed at first, on the configurations that it has, and on all that it was told to
    switch to: `Output.shows`. `Wall.Brings.mode_blends` is what the mode comes to after any
    operations, and `Wall.mode_of_two_configs` a wall whose mode is that of no configuration. -/

namespace VideoWall

/-! ### One output -/

namespace Output

/-- What an output contributes once it shows a configuration; what the configuration lacks is
    zero. -/
def modeAt (o : Output) (config : Nat) : OutputMode := { o with active := config }.mode config

/-- The size that an output has at one configuration, with its refresh and densities at another. -/
def blend (o : Output) (shown config : Nat) : OutputMode :=
  { o.modeAt config with width := (o.modeAt shown).width, height := (o.modeAt shown).height }

/-- What an output shows after it was told to switch to some configurations: the last of them that
    it has, or else what it showed before. -/
def shows (o : Output) (configs : List Nat) : Nat :=
  (configs.filter (· < o.configs.length)).getLastD o.active

theorem foldl_setActiveConfig (o : Output) (configs : List Nat) :
    configs.foldl setActiveConfig o = { o with active := o.shows configs } := by
  induction configs using List.reverseRecOn with
  | nil => rfl
  | append_singleton configs config ih =>
    rw [List.foldl_append, ih, List.foldl_cons, List.foldl_nil, setActiveConfig, shows, shows,
      List.filter_append]
    split
    · next hlt => simp [hlt]
    · next hge => simp [hge]

/-- An output that has switched contributes the size of what it shows. -/
theorem mode_foldl_setActiveConfig (o : Output) (configs : List Nat) (config : Nat) :
    (configs.foldl setActiveConfig o).mode config = o.blend (o.shows configs) config := by
  rw [foldl_setActiveConfig]
  rfl

/-- A blend of one configuration is what the output contributes at it. -/
theorem blend_self (o : Output) (config : Nat) : o.blend config config = o.modeAt config := rfl

/-- An output follows the last switch if it has that configuration. -/
theorem shows_eq_getLastD {o : Output} {configs : List Nat} (hne : configs ≠ []) {first : Nat}
    (hlt : configs.getLastD first < o.configs.length) :
    o.shows configs = configs.getLastD first := by
  obtain ⟨rest, last, rfl⟩ := (List.eq_nil_or_concat configs).resolve_left hne
  rw [List.concat_eq_append, List.getLastD_concat] at hlt ⊢
  simp [shows, hlt]

end Output

/-! ### All outputs -/

/-- The configurations that the outputs were told to switch to, one more revision on. -/
theorem Revision.filterMap_config?_concat (revisions : List Revision) (r : Revision) :
    (revisions ++ [r]).filterMap config? = revisions.filterMap config? ++ r.config?.toList := by
  rw [List.filterMap_append]
  cases r <;> rfl

namespace Derived

theorem config_revise (s : Derived) (r : Revision) :
    (s.revise r).config = r.config?.getD s.config := by
  cases r with
  | configure config => rfl
  | report => rfl
  | frame plugged =>
    rw [revise]
    split
    · rfl
    · split <;> rfl

/-- The configuration is the last one that the outputs were told to switch to. -/
theorem config_of (outputs : List Output) (revisions : List Revision) :
    (Derived.of outputs revisions).config =
      (revisions.filterMap Revision.config?).getLastD 0 := by
  induction revisions using List.reverseRecOn with
  | nil => rfl
  | append_singleton revisions r ih =>
    rw [of_append, List.foldl_cons, List.foldl_nil, config_revise, ih,
      Revision.filterMap_config?_concat]
    cases r.config? <;> simp

/-- Every screen has made all the switches. -/
theorem screens_of (outputs : List Output) (revisions : List Revision) :
    (Derived.of outputs revisions).screens = outputs.map fun o =>
      (revisions.filterMap Revision.config?).foldl Output.setActiveConfig o.screen := by
  induction revisions using List.reverseRecOn with
  | nil => rfl
  | append_singleton revisions r ih =>
    rw [of_append, List.foldl_cons, List.foldl_nil, screens_revise, ih,
      Revision.filterMap_config?_concat]
    cases r.config? <;> simp [Function.comp_def]

/-- What the screens contribute, in terms of the outputs as they were at first. -/
theorem map_mode_screens_of (outputs : List Output) (revisions : List Revision) (config : Nat) :
    (Derived.of outputs revisions).screens.map (·.mode config) = outputs.map fun o =>
      o.blend (o.shows (revisions.filterMap Revision.config?)) config := by
  rw [screens_of, List.map_map]
  exact List.map_congr_left fun o _ => o.screen.mode_foldl_setActiveConfig _ config

/-- The mode is that of the screens, but for the preferred output. -/
theorem exists_mode_of (outputs : List Output) (revisions : List Revision) :
    ∃ preferred, (Derived.of outputs revisions).mode =
      { CompositeMode.ofOutputs ((Derived.of outputs revisions).screens.map
          (·.mode (Derived.of outputs revisions).config)) with preferred } := by
  induction revisions using List.reverseRecOn with
  | nil => exact ⟨_, mode_start outputs⟩
  | append_singleton revisions r ih =>
    obtain ⟨preferred, ih⟩ := ih
    rw [of_append, List.foldl_cons, List.foldl_nil]
    cases r with
    | configure config => exact ⟨_, rfl⟩
    | report => exact ⟨preferred, ih⟩
    | frame plugged =>
      rw [revise]
      split
      · exact ⟨preferred, ih⟩
      · split
        · exact ⟨preferred, ih⟩
        · next chosen _ => exact ⟨chosen, congrArg ({ · with preferred := chosen }) ih⟩

/-- With no frame since the last switch, the mode is that of the screens outright. -/
theorem mode_of_last (outputs : List Output) {revisions : List Revision}
    (h : revisions.getLast?.all (·.config?.isSome) = true) :
    (Derived.of outputs revisions).mode =
      .ofOutputs ((Derived.of outputs revisions).screens.map
        (·.mode (Derived.of outputs revisions).config)) := by
  rcases List.eq_nil_or_concat revisions with rfl | ⟨rest, last, rfl⟩
  · exact mode_start outputs
  · rw [List.concat_eq_append] at h ⊢
    rw [of_append, List.foldl_cons, List.foldl_nil]
    cases last with
    | configure config => rfl
    | _ => simp [Revision.config?] at h

end Derived

/-! ### The mode of a wall -/

namespace Wall

variable {outputs : List Output} {policy : Policy} {n : Noted (List Revision)} {c : Controller}

/-- The mode of a wall after any operations, in terms of its outputs as they were at first and of
    the configurations that they were told to switch to. The active configuration is the last of
    these. Each output contributes its refresh and densities there, and the size of what it shows,
    which is the last configuration that it has. So the mode describes the active configuration as
    long as every output shows it; an output that has it does so once it was told to, but nothing
    makes an output show configuration 0 at first, and one that lacks the configuration stays with
    the size of another. Frames may choose another preferred output. -/
theorem Brings.mode_blends (h : (create outputs policy).Brings revising [] n)
    (hc : n.run.wall.controller = some c) :
    let configs := n.notes.filterMap Revision.config?
    let config := configs.getLastD 0
    let blended := CompositeMode.ofOutputs (outputs.map fun o => o.blend (o.shows configs) config)
    c.activeConfig = config ∧ (∃ preferred, c.mode = { blended with preferred }) ∧
      (n.notes.getLast?.all (·.config?.isSome) = true → c.mode = blended) ∧
      ((∀ o ∈ outputs, o.shows configs = config) →
        blended = .ofOutputs (outputs.map (·.modeAt config))) ∧
      ∀ o ∈ outputs, configs ≠ [] → config < o.configs.length → o.shows configs = config := by
  intro configs config blended
  have hof := h.derived.controller c hc
  have hconfig : (Derived.of outputs n.notes).config = config := Derived.config_of outputs n.notes
  have hblended : CompositeMode.ofOutputs ((Derived.of outputs n.notes).screens.map
      (·.mode (Derived.of outputs n.notes).config)) = blended := by
    rw [hconfig, Derived.map_mode_screens_of]
  refine ⟨hof.config_eq.trans hconfig, ?_, fun hlast => ?_, fun hshown => ?_, fun o _ hne hlt => ?_⟩
  · obtain ⟨preferred, hmode⟩ := Derived.exists_mode_of outputs n.notes
    exact ⟨preferred, by rw [hof.mode_eq, hmode, hblended]⟩
  · rw [hof.mode_eq, Derived.mode_of_last outputs hlast, hblended]
  · refine congrArg CompositeMode.ofOutputs (List.map_congr_left fun o ho => ?_)
    rw [hshown o ho, Output.blend_self]
  · exact Output.shows_eq_getLastD hne hlt

/-- Two outputs of which only the first has the configuration that they are told to switch to. -/
def mismatched : List Output :=
  [{ configs := [⟨100, 50, some 60, some 10, some 10⟩, ⟨200, 80, some 30, some 20, some 20⟩] },
    { configs := [⟨300, 60, some 60, some 10, some 10⟩] }]

def switched : Noted (List Revision) :=
  Noted.perform revising ⟨(create mismatched {}).resting, []⟩ (.setActiveConfig 1)

/-- The second output contributes a size, and neither a refresh nor a density. -/
theorem mode_blends_switched :
    ∃ c, (create mismatched {}).Brings revising [] switched ∧
      switched.run.wall.controller = some c ∧ switched.notes = [.configure 1] ∧
      c.activeConfig = 1 ∧ c.mode = ⟨500, 80, 15, 10, 10, 0⟩ := by
  have h : (create mismatched {}).Brings revising [] switched := Brings.start.perform rfl _
  have hsome : switched.run.wall.controller.isSome = true := by decide +kernel
  have hnotes : switched.notes = [.configure 1] := by decide +kernel
  obtain ⟨c, hc⟩ := Option.isSome_iff_exists.1 hsome
  obtain ⟨hconfig, -, hmode, -⟩ := h.mode_blends hc
  rw [hnotes] at hconfig hmode
  exact ⟨c, h, hc, hnotes, hconfig, (hmode rfl).trans (by decide)⟩

/-- An output that shows its second configuration at first: the mode of the new wall has the size of
    that one and the rest of configuration 0. When the output above that lacks the second
    configuration is told to switch to it, its size still counts. -/
theorem mode_of_two_configs :
    let o : Output :=
      { configs := [⟨100, 50, some 60, some 10, some 10⟩, ⟨200, 80, some 30, some 20, some 20⟩]
        active := 1 }
    (create [o] {}).controller.map (fun c => (c.activeConfig, c.mode)) =
        some (0, ⟨200, 80, 60, 10, 10, 0⟩) ∧
      CompositeMode.ofOutputs [o.modeAt 0] = ⟨100, 50, 60, 10, 10, 0⟩ ∧
      switched.run.wall.controller.map (fun c => (c.activeConfig, c.mode)) =
        some (1, ⟨500, 80, 15, 10, 10, 0⟩) ∧
      CompositeMode.ofOutputs (mismatched.map (·.modeAt 1)) = ⟨200, 80, 15, 10, 10, 0⟩ := by
  decide +kernel

end Wall

end VideoWall
