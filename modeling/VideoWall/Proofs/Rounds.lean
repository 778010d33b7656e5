import Mathlib.Data.List.Perm.Subperm
import VideoWall.Proofs.Fanin
import VideoWall.Proofs.Passive

/-! Whose vblanks make up a vsync.

    The controller hears the vblanks of its outputs through the listeners that it has registered
    with them, and counts them without asking whose they are. So a round between two vsyncs has as
    many vblanks as there are connected outputs, and `vblanks_make_rounds` says that it has heard
    every one of them exactly when it has heard none of them twice. An output that is faster than
    the others fills a round by itself: `round_without_output`. -/

namespace VideoWall

/-! ### Rounds -/

/-- The positions of the connected outputs. -/
def connectedPositions (plugged : List Bool) : List Nat :=
  (List.range plugged.length).filter fun i => plugged[i]? == some true

theorem mem_connectedPositions {plugged : List Bool} {i : Nat} :
    i ∈ connectedPositions plugged ↔ plugged[i]? = some true := by
  simp only [connectedPositions, List.mem_filter, List.mem_range, beq_iff_eq, and_iff_right_iff_imp]
  exact fun h => (List.getElem?_eq_some_iff.1 h).1

theorem nodup_connectedPositions (plugged : List Bool) : (connectedPositions plugged).Nodup :=
  List.nodup_range.filter _

theorem length_connectedPositions (plugged : List Bool) :
    (connectedPositions plugged).length = plugged.count true := by
  have hmap : plugged = (List.range plugged.length).map fun i => plugged[i]?.getD false := by
    refine List.ext_getElem (by simp) fun i hi _ => ?_
    simp [hi]
  rw [connectedPositions, ← List.countP_eq_length_filter, List.count]
  conv_rhs => rw [hmap, List.countP_map]
  refine List.countP_congr fun i hi => ?_
  simp [List.mem_range.1 hi]

/-- As many reports of connected outputs as there are: all have reported if none has twice. -/
theorem covers_iff_nodup {plugged : List Bool} {round : List Nat}
    (hmem : ∀ i ∈ round, plugged[i]? = some true) (hlen : round.length = plugged.count true) :
    (∀ i, plugged[i]? = some true → i ∈ round) ↔ round.Nodup := by
  have hsub : round ⊆ connectedPositions plugged :=
    fun i hi => mem_connectedPositions.2 (hmem i hi)
  have hn := length_connectedPositions plugged
  constructor
  · intro hall
    have hcovers : connectedPositions plugged ⊆ round :=
      fun i hi => hall i (mem_connectedPositions.1 hi)
    have hperm := (List.subperm_of_subset (nodup_connectedPositions plugged) hcovers)
      |>.perm_of_length_le (by omega)
    exact hperm.nodup_iff.1 (nodup_connectedPositions plugged)
  · intro hnodup i hi
    have hperm := (List.subperm_of_subset hnodup hsub).perm_of_length_le (by omega)
    exact hperm.mem_iff.2 (mem_connectedPositions.2 hi)

/-! ### Walls that count vblanks -/

/-- A wall that hears the vblanks of its connected outputs, with vsync enabled and a single
    listener, which does nothing but listen; `times` have come in since the cycle began. -/
structure Wall.Counting (u : Upstream) (times : List Int) (w : Wall) : Prop where
  held : w.held = true
  listeners_eq : w.listeners = [⟨u.tag, [], 0⟩]
  listener_eq : u.listener = 0
  forwarding : ∀ i : Nat, u.plugged[i]? = some true →
    w.outputs[i]?.any (fun o => o.onVsync.isSome && o.forwarding) = true
  controller : ∃ c, w.controller = some c ∧ c.vsyncEnabled = true ∧
    c.vsyncListener = some u.listener ∧ c.display = u.display ∧
    c.cycle = Vsync.cycleAfter u.outputs times

namespace Wall

variable {u : Upstream} {times : List Int} {w : Wall} {i : Nat}

theorem Counting.passive (h : w.Counting u times) : w.Passive := by
  intro l hl
  rw [h.listeners_eq, List.mem_singleton] at hl
  rw [hl]

/-- To tell a used-up listener something leaves the wall as it is. -/
theorem tell_of_used_up {tag : String} (hl : w.listeners = [⟨tag, [], 0⟩]) (display : DisplayId)
    (mean : Option Int) :
    w.tell (mean.map fun m => ⟨0, display, .vsync m⟩) =
      (w, mean.toList.map fun m => .told 0 tag display (.vsync m)) := by
  cases mean with
  | none => rfl
  | some m => simp [tell, deliver, hl]

/-- A vblank of a connected output adds its time, whichever output it is. -/
theorem Counting.perform_vblank (h : w.Counting u times) (hi : u.plugged[i]? = some true)
    (t : Int) :
    (w.perform (.vblank i t false)).1.Counting u (times ++ [t]) ∧
      u.told (times ++ [t]) = u.told times ++ (w.perform (.vblank i t false)).2.events := by
  have hn : 0 < u.outputs := List.count_pos_iff.2 (List.mem_of_getElem? hi)
  obtain ⟨c, hc, henabled, hlistener, hdisplay, hcycle⟩ := h.controller
  obtain ⟨mean, hobserve, hmeans⟩ := Vsync.observe_cycleAfter times t hn
  have hvblank : c.vblank t = ({ c with cycle := Vsync.cycleAfter u.outputs (times ++ [t]) },
      mean.toList.map fun m => ⟨0, u.display, .vsync m⟩) := by
    rw [Controller.vblank, henabled, hlistener, hcycle, hobserve, hdisplay, h.listener_eq]
  set c' : Controller := { c with cycle := Vsync.cycleAfter u.outputs (times ++ [t]) }
  set v : Wall := { w with controller := some c', delivering := w.delivering + 1 }
  have hbegin : w.begin 0 (.vblank i t false) =
      { wall := v
        tasks := (mean.map fun m => (⟨0, u.display, .vsync m⟩ : Delivery)).toList.map .deliver ++
          [.leave] } := by
    have hthrough : w.outputs[i]?.any (fun o => o.onVsync.isSome && (o.forwarding || false)) =
        true := by simpa using h.forwarding i hi
    rw [begin, through, if_pos hthrough, enter_eq hc hvblank]
    cases mean <;> rfl
  have htell := tell_of_used_up (w := v) h.listeners_eq u.display mean
  obtain ⟨hwall, hevents⟩ := perform_of_begin (show v.held = true from h.held) h.passive hbegin
  rw [htell] at hwall hevents
  rw [hwall, hevents]
  refine ⟨⟨h.held, h.listeners_eq, h.listener_eq, h.forwarding, c', rfl, henabled, hlistener,
    hdisplay, rfl⟩, ?_⟩
  rw [Upstream.told, Upstream.told, hmeans, List.map_append, h.listener_eq]

/-- The vblanks of some outputs, each with its time. -/
def vblanks (reports : List (Nat × Int)) : List Op := reports.map fun r => .vblank r.1 r.2 false

theorem Counting.performAll_vblanks (h : w.Counting u times) {reports : List (Nat × Int)}
    (hr : ∀ r ∈ reports, u.plugged[r.1]? = some true) :
    u.told (times ++ reports.map (·.2)) =
      u.told times ++ (w.performAll (vblanks reports)).2 := by
  induction reports generalizing w times with
  | nil => simp [vblanks, performAll]
  | cons r reports ih =>
    obtain ⟨hstep, htold⟩ := h.perform_vblank (hr r List.mem_cons_self) r.2
    have hrest := ih hstep fun q hq => hr q (List.mem_cons_of_mem _ hq)
    rw [List.append_assoc, htold, List.append_assoc] at hrest
    exact hrest

/-- A wall over some outputs, whose vsync is enabled for a host that does nothing but listen. -/
def listening (outputs : List Output) (policy : Policy) (display : DisplayId) (tag : String) :
    Wall :=
  ((create outputs policy).performAll [.listen .vsync display tag [] 0, .control true]).1

theorem counting_listening (outputs : List Output) (policy : Policy) (display : DisplayId)
    (tag : String) :
    (listening outputs policy display tag).Counting
      ⟨outputs.map (·.connected), 0, tag, display⟩ [] := by
  set w := create outputs policy with hw
  set c : Controller := .create (.ofOutputs (outputs.map (·.mode 0)))
    (outputs.countP (·.connected))
  have hlisten : (w.perform (.listen .vsync display tag [] 0)).1 =
      { (w.setOutputs (·.register .vsync)).addListener { tag, script := [], left := 0 } with
        controller := some (c.listenVsync 0 display) } := by
    rw [perform_eq_begin] <;> rfl
  set v := (w.perform (.listen .vsync display tag [] 0)).1
  have hcontrol : (v.perform (.control true)).1 =
      { v.setOutputs (·.control true) with
        controller := some ((c.listenVsync 0 display).control true) } := by
    rw [perform_eq_begin] <;> rw [hlisten] <;> rfl
  show (v.perform (.control true)).1.Counting _ _
  have hcount : (outputs.map (·.connected)).count true = outputs.countP (·.connected) := by
    rw [List.count, List.countP_map]
    exact List.countP_congr fun o _ => by simp
  rw [hcontrol, hlisten]
  refine ⟨rfl, rfl, rfl, ?_, _, rfl, rfl, rfl, rfl, ?_⟩
  · intro i hi
    rw [List.getElem?_map] at hi
    obtain ⟨o, ho, -⟩ := Option.map_eq_some_iff.1 hi
    simp [Wall.outputs, setOutputs, addListener, hw, create, ho, Output.control, Output.register,
      Output.mapLoop]
  · rw [Vsync.cycleAfter_nil, Upstream.outputs, hcount]
    rfl

/-- Vblanks of connected outputs, in any order: the host is told a vsync at the end of every round,
    which has as many vblanks as there are connected outputs. In a round every connected output has
    reported exactly if none has reported twice. -/
theorem vblanks_make_rounds (outputs : List Output) (policy : Policy) (display : DisplayId)
    (tag : String) (reports : List (Nat × Int))
    (h : ∀ r ∈ reports, (outputs.map (·.connected))[r.1]? = some true) :
    let n := (outputs.map (·.connected)).count true
    ((listening outputs policy display tag).performAll (vblanks reports)).2 =
        (Vsync.means n (reports.map (·.2))).map (fun m => .told 0 tag display (.vsync m)) ∧
      ∀ j, (j + 1) * n ≤ reports.length →
        let round := ((reports.drop (j * n)).take n).map (·.1)
        (∀ i : Nat, (outputs.map (·.connected))[i]? = some true → i ∈ round) ↔ round.Nodup := by
  intro n
  constructor
  · have htold := (counting_listening outputs policy display tag).performAll_vblanks h
    have hnil : Vsync.means n [] = [] := by rw [Vsync.means, List.length_nil, Nat.zero_div]; rfl
    rw [List.nil_append, Upstream.told, Upstream.told,
      show Upstream.outputs _ = n from rfl, hnil] at htold
    exact htold.symm
  · intro j hj round
    refine covers_iff_nodup ?_ ?_
    · intro i hi
      obtain ⟨r, hr, rfl⟩ := List.mem_map.1 hi
      exact h r (List.mem_of_mem_drop (List.mem_of_mem_take hr))
    · rw [Nat.succ_mul] at hj
      simp only [round, List.length_map, List.length_take, List.length_drop]
      omega

/-- Three outputs, of which the second is not connected: in the first round both of the others
    report, and in the second round only the first one does. -/
theorem vblanks_make_rounds_uneven :
    let outputs : List Output := [{}, { connected := false }, {}]
    let reports : List (Nat × Int) := [(0, 100), (2, 200), (0, 300), (0, 400)]
    (∀ r ∈ reports, (outputs.map (·.connected))[r.1]? = some true) ∧
      ((listening outputs {} ⟨7⟩ "host").performAll (vblanks reports)).2 =
        [.told 0 "host" ⟨7⟩ (.vsync 150), .told 0 "host" ⟨7⟩ (.vsync 350)] ∧
      ¬ ∀ i : Nat, (outputs.map (·.connected))[i]? = some true →
        i ∈ ((reports.drop 2).take 2).map (·.1) := by
  intro outputs reports
  have h : ∀ r ∈ reports, (outputs.map (·.connected))[r.1]? = some true := by decide
  obtain ⟨hevents, hrounds⟩ := vblanks_make_rounds outputs {} ⟨7⟩ "host" reports h
  have hmeans : Vsync.means ((outputs.map (·.connected)).count true) (reports.map (·.2)) =
      [150, 350] := by decide
  rw [hmeans] at hevents
  refine ⟨h, hevents, ?_⟩
  intro hall
  have hnodup := (hrounds 1 (by decide)).1 hall
  revert hnodup
  decide

/-- Between two vsyncs, only one of two connected outputs has a vblank. -/
theorem round_without_output :
    let w := listening [{}, {}] {} ⟨7⟩ "host"
    let first := w.performAll (vblanks [(0, 100), (1, 200)])
    let second := first.1.performAll (vblanks [(0, 300), (0, 400)])
    (w.outputs.map (·.connected))[1]? = some true ∧
      first.2 = [.told 0 "host" ⟨7⟩ (.vsync 150)] ∧
      second.2 = [.told 0 "host" ⟨7⟩ (.vsync 350)] :=
  ⟨rfl, rfl, rfl⟩

end Wall

end VideoWall
