import VideoWall.Proofs.Frame

/-! Traits of outputs that last.

    Showing frames, letting go of fences and running a loop change little about an output. What they
    leave alone only changes by operations: `Wall.view_exec`. Whether an output is connected is such
    a trait. -/

namespace VideoWall

/-- What can be read off an output and does not change as it shows frames, as its fences are let go
    and as its loop runs. -/
structure Output.Lasting {α : Type} (g : Output → α) : Prop where
  present : ∀ o, g o.present.1 = g o
  release : ∀ o f, g (o.release f) = g o
  mapLoop : ∀ o f, g (o.mapLoop f) = g o

namespace Output.Lasting

variable {α : Type} {g : Output → α}

theorem retire (hg : Lasting g) (t : Tile) : g t.retire.output = g t.output := by
  rw [Tile.retire]
  split
  · rfl
  · exact hg.release ..

theorem reconcile (hg : Lasting g) (t : Tile) (i : Nat) :
    g (t.reconcile i).output = g t.output := by
  rw [Tile.reconcile]
  split
  · rfl
  · exact hg.retire t

theorem finish (hg : Lasting g) (t : Tile) (s : Submission) :
    g (t.finish s).output = g t.output := by
  cases hk : t.worker with
  | none => cases s <;> simp [Tile.finish, hk, hg.release]
  | some k => cases s <;> simp [Tile.finish, hk, Worker.settle, hg.release]

theorem compose (hg : Lasting g) (k : Worker) (o : Output) (job : Job) :
    g (k.compose o job).2.1 = g o := by
  rcases k.compose_output o job with ho | ho
  · rw [ho]
  · rw [ho, hg.present]

end Output.Lasting

namespace Wall

variable {α : Type} {g : Output → α} {w : Wall}

/-- What is read off every output, from left to right. -/
def view (w : Wall) (g : Output → α) : List α := w.tiles.map (g ·.output)

theorem view_setTile (w : Wall) (i : Nat) {f : Tile → Tile}
    (h : ∀ t, w.tiles[i]? = some t → g (f t).output = g t.output) :
    (w.setTile i f).view g = w.view g :=
  map_modify_of_eq (g := fun t : Tile => g t.output) h

theorem view_setOutput (w : Wall) (i : Nat) {f : Output → Output} (h : ∀ o, g (f o) = g o) :
    (w.setOutput i f).view g = w.view g :=
  w.view_setTile i fun t _ => h t.output

theorem view_setOutputs (w : Wall) {f : Output → Output} (h : ∀ o, g (f o) = g o) :
    (w.setOutputs f).view g = w.view g := by
  rw [view, view, setOutputs, List.map_map]
  exact List.map_congr_left fun t _ => h t.output

theorem view_enter (w : Wall) (decide : Controller → Controller × List Delivery) :
    (w.enter decide).wall.view g = w.view g := by
  rcases w.enter_cases decide with ⟨-, he⟩ | ⟨c, -, he⟩ <;> rw [he]
  rfl

theorem view_through (w : Wall) (registered : Bool)
    (decide : Controller → Controller × List Delivery) :
    (w.through registered decide).wall.view g = w.view g := by
  cases registered with
  | true => exact w.view_enter decide
  | false => rfl

theorem view_asHolder {f : Controller → Effect}
    (h : ∀ c, w.controller = some c → (f c).wall.view g = w.view g) :
    (w.asHolder f).wall.view g = w.view g := by
  rcases w.asHolder_cases f with ⟨c, -, hc, he⟩ | ⟨-, he⟩
  · rw [he, h c hc]
  · rw [he]

theorem view_settle (hg : Output.Lasting g) (w : Wall) : w.settle.view g = w.view g := by
  rw [settle]
  split
  · rfl
  · rw [dissolve, view, view, List.map_map]
    exact List.map_congr_left fun t _ => hg.retire t

theorem view_reconcile (hg : Output.Lasting g) (w : Wall) (c : Controller) :
    (w.reconcile c).view g = w.view g := by
  rw [reconcile]
  split
  · refine List.ext_getElem? fun i => ?_
    cases h : w.tiles[i]? <;> simp [view, h, hg.reconcile]
  · rfl

theorem view_present (hg : Output.Lasting g) (w : Wall) (c : Controller) (layers : List Layer)
    (upload : Bool) (mark : Nat) : (w.present c layers upload mark).wall.view g = w.view g := by
  rw [present]
  split
  · exact w.view_reconcile hg c
  · rfl

/-- Only operations change a lasting trait. -/
theorem view_exec (hg : Output.Lasting g) (w : Wall) (mark : Nat) {t : Task}
    (ht : ∀ op, t ≠ .perform op) : (w.exec mark t).wall.view g = w.view g := by
  cases t with
  | perform op => exact absurd rfl (ht op)
  | report op reply => rfl
  | deliver d =>
    rw [exec]
    rcases w.deliver_cases d with ⟨he, -⟩ | ⟨l, -, ⟨-, he⟩ | ⟨left, -, he⟩⟩ <;> rw [he]
    rfl
  | leave => exact view_settle hg { w with delivering := w.delivering - 1 }
  | endFrame => exact view_settle hg { w with presenting := w.presenting - 1 }
  | dispatch i job =>
    rw [exec]
    rcases w.dispatch_cases i job with ⟨log, he, -⟩ | ⟨k, -, -, he⟩ <;> rw [he]
    exact w.view_setTile i fun _ _ => rfl
  | work i =>
    rw [exec]
    rcases w.work_cases i with ⟨he, -⟩ | ⟨t, _, job, k', ht, -, -, _, _, _, he, -⟩ <;> rw [he]
    refine w.view_setTile i fun u hu => ?_
    rw [Option.some.inj (hu.symm.trans ht)]
    exact hg.compose k' t.output job
  | finish i upload s =>
    exact view_setTile { w with uploads := w.uploads + s.uploads upload } i fun t _ => hg.finish t s
  | await i => exact w.view_setTile i fun _ _ => rfl
  | group m => rfl
  | arrive i r =>
    have hset := w.view_setOutput i fun o => hg.mapLoop o (·.enqueue r)
    rw [exec]
    rcases w.arrive_cases i r with ⟨he, -⟩ | he <;> rw [he] <;> exact hset
  | poll i =>
    rw [exec]
    rcases w.poll_cases i with ⟨he, -⟩ | ⟨l, r, m, -, -, he⟩ <;> rw [he]
    exact w.view_setOutput i fun o => hg.mapLoop o _
  | item i x =>
    rw [exec]
    rcases w.item_cases i x with ⟨log, he, -⟩ | ⟨l, f, log, -, -, ⟨-, he⟩ | ⟨call, -, he⟩⟩ <;>
      rw [he]
    · exact w.view_setOutput i fun o => hg.mapLoop o _
    · exact (view_enter ..).trans (w.view_setOutput i fun o => hg.mapLoop o _)
  | arm i =>
    rw [exec]
    rcases w.arm_cases i with ⟨he, -⟩ | ⟨l, -, he⟩ <;> rw [he]
    exact w.view_setOutput i fun o => hg.mapLoop o _

end Wall

namespace Output

theorem lasting_connected : Lasting (·.connected) where
  present := connected_present
  release := connected_release
  mapLoop := connected_mapLoop

end Output

/-- Connections only change by operations. -/
theorem Wall.plugged_exec (w : Wall) (mark : Nat) {t : Task} (ht : ∀ op, t ≠ .perform op) :
    (w.exec mark t).wall.plugged = w.plugged := w.view_exec Output.lasting_connected mark ht

end VideoWall
