import VideoWall.Proofs.Views

/-! What an output shows, and which steps change that.

    The mode that an output contributes depends on its configurations and on the one that is active;
    with nothing else, the output is a screen: `Output.screen`. All screens switch at once, and only
    when the holder of the controller says so: `Wall.screens_exec`. -/

namespace VideoWall

namespace Output

/-- An output with its configurations, the active one, and nothing else. -/
def screen (o : Output) : Output := { configs := o.configs, active := o.active }

theorem lasting_screen : Lasting screen where
  present := by
    intro o
    rw [present]
    split
    · rfl
    · split <;> rfl
  release := by
    intro o f
    cases f <;> rfl
  mapLoop := fun _ _ => rfl

/-- The screen is all that matters to the mode. -/
theorem mode_screen (o : Output) (config : Nat) : o.screen.mode config = o.mode config := rfl

theorem screen_setPowerMode (o : Output) (mode : PowerMode) :
    (o.setPowerMode mode).screen = o.screen := rfl

theorem screen_control (o : Output) (enabled : Bool) : (o.control enabled).screen = o.screen := rfl

theorem screen_register (o : Output) (channel : Channel) :
    (o.register channel).screen = o.screen := by
  cases channel <;> rfl

theorem screen_change (o : Output) (c : OutputChange) : (o.change c).screen = o.screen := rfl

theorem screen_setActiveConfig (o : Output) (config : Nat) :
    (o.setActiveConfig config).screen = o.screen.setActiveConfig config := by
  rw [setActiveConfig, setActiveConfig, screen, screen]
  split <;> rfl

/-- To switch to a configuration twice is to switch to it once. -/
theorem setActiveConfig_setActiveConfig (o : Output) (config : Nat) :
    (o.setActiveConfig config).setActiveConfig config = o.setActiveConfig config := by
  by_cases h : config < o.configs.length <;> simp [setActiveConfig, h]

end Output

namespace Wall

variable {w : Wall}

/-- The screens of the outputs, from left to right. -/
def screens (w : Wall) : List Output := w.view Output.screen

/-- What the outputs contribute at a configuration, and what they will once they have switched. -/
theorem map_mode_screens (w : Wall) (config : Nat) :
    w.screens.map (·.mode config) = w.outputs.map (·.mode config) := by
  rw [screens, view, outputs, List.map_map, List.map_map]
  exact List.map_congr_left fun t _ => t.output.mode_screen config

theorem map_mode_setActiveConfig_screens (w : Wall) (config : Nat) :
    (w.screens.map (·.setActiveConfig config)).map (·.mode config) =
      w.outputs.map fun o => (o.setActiveConfig config).mode config := by
  rw [screens, view, outputs, List.map_map, List.map_map, List.map_map]
  refine List.map_congr_left fun t _ => ?_
  rw [Function.comp_apply, Function.comp_apply, Function.comp_apply,
    ← Output.screen_setActiveConfig, Output.mode_screen]

/-- The configuration that a task makes the outputs switch to, if it does. -/
def configures? (w : Wall) : Task → Option Nat
  | .perform (.setActiveConfig config) =>
    if w.held && w.controller.isSome then some config else none
  | _ => none

/-- An operation leaves the screens alone, unless it makes them all switch. -/
theorem screens_begin (w : Wall) (mark : Nat) (op : Op) :
    (w.begin mark op).wall.screens =
      (w.configures? (.perform op)).elim w.screens
        fun config => w.screens.map (·.setActiveConfig config) := by
  cases op with
  | setActiveConfig config =>
    rcases w.asHolder_cases fun c => w.setActiveConfig c config with
      ⟨c, hh, hc, he⟩ | ⟨hgone, he⟩
    · rw [begin, he, configures?, hh, hc]
      simp [setActiveConfig, screens, view, setOutputs, Output.screen_setActiveConfig]
    · have hnone : w.configures? (.perform (.setActiveConfig config)) = none := by
        rcases hgone with hgone | hgone <;> simp [configures?, hgone]
      rw [begin, he, hnone]
      rfl
  | setPowerMode mode =>
    exact view_asHolder fun c _ => w.view_setOutputs fun o => o.screen_setPowerMode mode
  | control enabled =>
    refine view_asHolder fun c _ => ?_
    rw [control]
    split
    · rfl
    · exact w.view_setOutputs fun o => o.screen_control enabled
  | vsyncUpdate | hotplugUpdate | refreshUpdate => exact view_asHolder fun _ _ => w.view_enter _
  | listen channel display tag script limit =>
    exact view_asHolder fun c _ => w.view_setOutputs fun o => o.screen_register channel
  | present layers upload =>
    exact view_asHolder fun c _ => w.view_present Output.lasting_screen c layers upload mark
  | ask question => exact view_asHolder fun _ _ => rfl
  | vblank | requestRefresh => exact w.view_through _ _
  | plug i connected =>
    exact (view_through ..).trans (w.view_setOutput i fun _ => rfl)
  | change i change onPresent =>
    have hset := w.view_setOutput i fun o => o.screen_change change
    cases onPresent with
    | none => exact hset
    | some script =>
      have htile := (w.setOutput i (·.change change)).view_setTile (g := Output.screen) i
        (f := fun t => { t with onPresent := script }) fun t _ => rfl
      exact htile.trans hset
  | feed i readings => rfl
  | drop => exact view_settle Output.lasting_screen _

/-- A task makes all screens switch, or leaves them alone. -/
theorem screens_exec (w : Wall) (mark : Nat) (t : Task) :
    (w.exec mark t).wall.screens =
      (w.configures? t).elim w.screens fun config => w.screens.map (·.setActiveConfig config) := by
  by_cases ht : ∃ op, t = .perform op
  · obtain ⟨op, rfl⟩ := ht
    exact w.screens_begin mark op
  · have hne : ∀ op, t ≠ .perform op := fun op hop => ht ⟨op, hop⟩
    have hnone : w.configures? t = none := by
      cases t with
      | perform op => exact absurd rfl (hne op)
      | _ => rfl
    rw [hnone]
    exact w.view_exec Output.lasting_screen mark hne

end Wall

end VideoWall
