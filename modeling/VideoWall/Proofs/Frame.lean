import VideoWall.Wall.Rest

/-! What the parts of a step leave alone.

    Most of what happens to an output leaves its connection as it is, and most of what happens to a
    tile leaves its script. Here stand these facts, and the one induction over the steps of an
    operation: what every step keeps holds at the end of the operation, when nothing is left to
    do. -/

namespace VideoWall

/-! ### Outputs stay plugged in -/

namespace Output

@[simp] theorem connected_mapLoop (o : Output) (f : Vblank.Loop Unit → Vblank.Loop Unit) :
    (o.mapLoop f).connected = o.connected := rfl

@[simp] theorem connected_setActiveConfig (o : Output) (config : Nat) :
    (o.setActiveConfig config).connected = o.connected := by
  rw [setActiveConfig]
  split <;> rfl

@[simp] theorem connected_setPowerMode (o : Output) (mode : PowerMode) :
    (o.setPowerMode mode).connected = o.connected := rfl

@[simp] theorem connected_register (o : Output) (channel : Channel) :
    (o.register channel).connected = o.connected := by
  cases channel <;> rfl

@[simp] theorem connected_control (o : Output) (enabled : Bool) :
    (o.control enabled).connected = o.connected := rfl

@[simp] theorem connected_release (o : Output) (f : Option Fence) :
    (o.release f).connected = o.connected := by
  cases f <;> rfl

@[simp] theorem connected_present (o : Output) : o.present.1.connected = o.connected := by
  rw [present]
  split
  · rfl
  · split <;> rfl

end Output

namespace Worker

@[simp] theorem connected_retire (w : Worker) (o : Output) :
    (w.retire o).2.connected = o.connected := by
  simp [retire]

@[simp] theorem connected_settle (w : Worker) (o : Output) (s : Submission) :
    (w.settle o s).2.connected = o.connected := by
  cases s <;> simp [settle]

/-- An output is shown a frame, or nothing happens to it. -/
theorem compose_output (k : Worker) (o : Output) (job : Job) :
    (k.compose o job).2.1 = o ∨ (k.compose o job).2.1 = o.present.1 := by
  rw [compose]
  dsimp only
  split
  · exact .inl rfl
  · split
    · next hp => exact .inr (congrArg Prod.fst hp).symm
    · next hp => exact .inr (congrArg Prod.fst hp).symm

@[simp] theorem connected_compose (w : Worker) (o : Output) (job : Job) :
    (w.compose o job).2.1.connected = o.connected := by
  rcases w.compose_output o job with ho | ho
  · rw [ho]
  · rw [ho, o.connected_present]

end Worker

namespace Tile

@[simp] theorem connected_retire (t : Tile) : t.retire.output.connected = t.output.connected := by
  rw [retire]
  split <;> simp

@[simp] theorem onPresent_retire (t : Tile) : t.retire.onPresent = t.onPresent := by
  rw [retire]
  split <;> rfl

@[simp] theorem connected_reconcile (t : Tile) (i : Nat) :
    (t.reconcile i).output.connected = t.output.connected := by
  rw [reconcile]
  split <;> simp

@[simp] theorem onPresent_reconcile (t : Tile) (i : Nat) :
    (t.reconcile i).onPresent = t.onPresent := by
  rw [reconcile]
  split <;> simp

@[simp] theorem connected_finish (t : Tile) (s : Submission) :
    (t.finish s).output.connected = t.output.connected := by
  unfold finish
  split <;> simp

@[simp] theorem onPresent_finish (t : Tile) (s : Submission) :
    (t.finish s).onPresent = t.onPresent := by
  unfold finish
  split <;> rfl

end Tile

/-! ### Fields of the wall -/

namespace Wall

variable (w : Wall) (i : Nat)

/-- While the host holds the controller, it does not go. -/
theorem settle_of_held {w : Wall} (h : w.held = true) : w.settle = w := by
  rw [settle, h]
  rfl

/-- For every output, whether it is connected. -/
def plugged : List Bool := w.tiles.map (·.output.connected)

theorem connectedCount_eq : w.connectedCount = w.plugged.count true := by
  rw [connectedCount, outputs, plugged, List.count, List.countP_map, List.countP_map]
  exact List.countP_congr fun t _ => by simp

theorem isConnected_eq : w.isConnected = w.plugged.any id := by
  rw [isConnected, outputs, plugged, List.any_map, List.any_map]
  rfl

/-- Changing one element and not what is read off it. -/
theorem map_modify_of_eq {α β : Type} {g : α → β} {f : α → α} {i : Nat} {xs : List α}
    (h : ∀ a, xs[i]? = some a → g (f a) = g a) : (xs.modify i f).map g = xs.map g := by
  refine List.ext_getElem? fun j => ?_
  rw [List.getElem?_map, List.getElem?_map, List.getElem?_modify]
  split
  · next hij =>
    subst hij
    cases ha : xs[i]? with
    | none => rfl
    | some a => exact congrArg some (h a ha)
  · rw [id_map']

/-- A tile after one tile has changed. -/
theorem exists_of_mem_setTile {w : Wall} {i : Nat} {f : Tile → Tile} {t : Tile}
    (ht : t ∈ (w.setTile i f).tiles) :
    ∃ u ∈ w.tiles, t = u ∨ w.tiles[i]? = some u ∧ t = f u := by
  obtain ⟨j, hj⟩ := List.mem_iff_getElem?.1 ht
  rw [setTile, List.getElem?_modify] at hj
  obtain ⟨u, hu, rfl⟩ := Option.map_eq_some_iff.1 hj
  refine ⟨u, List.mem_of_getElem? hu, ?_⟩
  split
  · next hij => exact .inr ⟨hij ▸ hu, rfl⟩
  · exact .inl rfl

theorem plugged_setTile {f : Tile → Tile}
    (h : ∀ t, w.tiles[i]? = some t → (f t).output.connected = t.output.connected) :
    (w.setTile i f).plugged = w.plugged :=
  map_modify_of_eq (g := fun t : Tile => t.output.connected) h

theorem plugged_setOutputs {f : Output → Output} (h : ∀ o, (f o).connected = o.connected) :
    (w.setOutputs f).plugged = w.plugged := by
  simp [plugged, setOutputs, h]

theorem plugged_mapIdx_reconcile :
    { w with tiles := w.tiles.mapIdx fun i t => Tile.reconcile t i }.plugged = w.plugged := by
  rw [plugged, plugged]
  refine List.ext_getElem? fun i => ?_
  cases h : w.tiles[i]? <;> simp [h]

/-- Connecting or disconnecting an output shows in its own place. -/
theorem plugged_setOutput_eq_set {f : Output → Output} {b : Bool} (h : ∀ o, (f o).connected = b) :
    (w.setOutput i f).plugged = w.plugged.set i b := by
  rw [plugged, plugged, setOutput, setTile]
  induction w.tiles generalizing i with
  | nil => simp
  | cons t ts ih =>
    cases i with
    | zero => simp [h]
    | succ i => simp [ih]

end Wall

/-! ### From steps to operations -/

/-- What every step keeps holds at the end of an operation, when nothing is left to do. -/
theorem Wall.runOf_of_next {P : Run → Prop} (hnext : ∀ r, P r → P r.next) (w : Wall) (op : Op)
    (h0 : P ⟨(w.begin 0 op).wall, (w.begin 0 op).tasks, (w.begin 0 op).late, (w.begin 0 op).events,
      (w.begin 0 op).log⟩) :
    P (w.runOf op) ∧ (w.runOf op).tasks = [] := by
  have hsteps : ∀ (fuel : Nat) (r : Run), P r → P (r.steps fuel) := by
    intro fuel
    induction fuel with
    | zero => exact fun r hr => hr
    | succ fuel ih =>
      intro r hr
      rw [Run.steps]
      split
      · exact hr
      · exact ih r.next (hnext r hr)
  refine ⟨hsteps _ _ h0, ?_⟩
  have hrest := w.isAtRest_runOf op
  rw [Run.isAtRest, Bool.and_eq_true] at hrest
  exact List.isEmpty_iff.1 hrest.1

end VideoWall
