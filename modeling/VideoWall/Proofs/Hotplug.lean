import Mathlib.Data.List.Chain
import VideoWall.Proofs.Course

/-! Connections that are reported late.

    Outputs are plugged and unplugged at any time, and each change is reported to the controller
    later: the reports of one output come in order, but reports of different outputs overtake each
    other. A report carries what was true of its own output at some time, and the controller counts
    the outputs that are connected now; so the connection state that it holds may be wrong while
    reports are outstanding. `Monitored.run_agrees`: it is right whenever none is, and the host has
    been told each of its turns once.

    The invariant is `Consistent`. The last outstanding report of an output says what is true of it,
    and a connected output without outstanding reports keeps the wall connected. -/

namespace VideoWall

/-! ### Turns -/

/-- The values at which a sequence that comes from `b` changes. -/
def turnsFrom (b : Bool) : List Bool → List Bool
  | [] => []
  | c :: cs => if b = c then turnsFrom b cs else c :: turnsFrom c cs

theorem turnsFrom_cons (b c : Bool) (cs : List Bool) :
    turnsFrom b (c :: cs) = turnsFrom b [c] ++ turnsFrom c cs := by
  by_cases h : b = c
  · subst h
    simp [turnsFrom]
  · simp [turnsFrom, h]

theorem turnsFrom_self (b : Bool) : turnsFrom b [b] = [] := by
  simp [turnsFrom]

/-- Turns alternate. -/
theorem isChain_turnsFrom (b : Bool) (cs : List Bool) :
    List.IsChain (fun x y => y = !x) (b :: turnsFrom b cs) := by
  induction cs generalizing b with
  | nil => exact List.isChain_singleton b
  | cons c cs ih =>
    rw [turnsFrom]
    split
    · exact ih b
    · next h =>
      refine List.isChain_cons_cons.2 ⟨?_, ih c⟩
      cases b <;> cases c <;> simp_all

/-! ### What the controller makes of a report -/

/-- The connection state after a report of `b`, with `outputs` outputs connected by now: only when
    none is left does the wall go with the report. -/
def heed (flag : Bool) (outputs : Nat) (b : Bool) : Bool :=
  if outputs = 0 then b else flag || b

namespace Controller

variable {flag : Bool} {divisor listeners : Nat} {c : Controller}

/-- The cycle starts over, and but for what the vsync listener is told the host is told nothing but
    a turn. -/
theorem hotplug_eq (c : Controller) (outputs : Nat) (b : Bool) :
    ∃ flushed : List Delivery,
      (∀ d ∈ flushed, d.notice.hotplug? = none ∧ c.vsyncListener = some d.listener) ∧
      c.hotplug outputs b = match c.turns outputs b, c.hotplugListener with
        | true, some listener =>
          ({ c with cycle := .fresh outputs, stale := true, connected := b },
            flushed ++ [⟨listener, c.display, .hotplug b⟩])
        | _, _ => ({ c with cycle := .fresh outputs, stale := true }, flushed) := by
  refine ⟨_, ?_, rfl⟩
  intro d hd
  split at hd
  · next hl _ =>
    rw [List.mem_singleton.1 hd]
    exact ⟨rfl, hl⟩
  · cases hd

theorem heed_of_turns {outputs : Nat} {b : Bool} (h : c.turns outputs b = true) :
    heed c.connected outputs b = b ∧ turnsFrom c.connected [b] = [b] := by
  simp only [turns, Bool.and_eq_true, bne_iff_ne, Bool.or_eq_true, beq_iff_eq] at h
  obtain ⟨hne, hb⟩ := h
  refine ⟨?_, by simp [turnsFrom, hne]⟩
  rw [heed]
  rcases hb with rfl | rfl
  · simp
  · simp

theorem heed_of_not_turns {outputs : Nat} {b : Bool} (h : c.turns outputs b = false) :
    heed c.connected outputs b = c.connected := by
  rw [heed]
  rw [turns] at h
  split
  · next h0 =>
    subst h0
    cases hc : c.connected <;> cases b <;> simp_all
  · next h0 =>
    cases hc : c.connected <;> cases b <;> simp_all

/-- A report that turns the connection state is told to the host, another one is not. -/
theorem Watched.hotplug (h : c.Watched flag divisor listeners) (outputs : Nat) (b : Bool) :
    (c.hotplug outputs b).1.Watched (heed flag outputs b) outputs listeners ∧
      (∀ d ∈ (c.hotplug outputs b).2, d.notice.hotplug? ≠ none → d.listener < listeners) ∧
      (c.hotplug outputs b).2.filterMap (·.notice.hotplug?) =
        turnsFrom flag [heed flag outputs b] := by
  obtain ⟨n, hn, hlt⟩ := h.listener_lt
  obtain ⟨flushed, hflushed, heq⟩ := c.hotplug_eq outputs b
  have hnil : flushed.filterMap (·.notice.hotplug?) = [] :=
    List.filterMap_eq_nil_iff.2 fun d hd => (hflushed d hd).1
  have hfresh := Vsync.Cycle.sound_fresh outputs
  obtain rfl := h.connected_eq
  rw [heq, hn]
  cases ht : c.turns outputs b with
  | true =>
    obtain ⟨hb, htold⟩ := heed_of_turns ht
    rw [hb, htold]
    refine ⟨⟨rfl, rfl, hfresh, n, rfl, hlt⟩, ?_, ?_⟩
    · intro d hd hne
      rcases List.mem_append.1 hd with hd | hd
      · exact absurd (hflushed d hd).1 hne
      · rw [List.mem_singleton.1 hd]
        exact hlt
    · rw [List.filterMap_append, hnil]
      rfl
  | false =>
    rw [heed_of_not_turns ht, turnsFrom_self]
    exact ⟨⟨rfl, rfl, hfresh, n, rfl, hlt⟩, fun d hd hne => absurd (hflushed d hd).1 hne, hnil⟩

end Controller

/-! ### Reports and changes on a wall -/

namespace Wall

variable {plugged : List Bool} {flag : Bool} {divisor : Nat} {w : Wall}

/-- A report is judged by how many outputs are connected when it comes in. -/
theorem Steady.hotplugUpdate (h : w.Steady plugged flag divisor) (b : Bool) :
    (w.perform (.hotplugUpdate b)).1.Steady plugged (heed flag (plugged.count true) b)
        (plugged.count true) ∧
      Event.hotplugs (w.perform (.hotplugUpdate b)).2.events =
        turnsFrom flag [heed flag (plugged.count true) b] := by
  obtain ⟨c, hw, hc, has⟩ := h.exists_asHolder
  have hcount : w.connectedCount = plugged.count true := by
    rw [connectedCount_eq, h.plugged_eq]
  obtain ⟨hw', hlt, htold⟩ := hw.hotplug (plugged.count true) b
  have hcalm : (w.begin 0 (.hotplugUpdate b)).Calm plugged (heed flag (plugged.count true) b)
      (plugged.count true) w.listeners.length
      (turnsFrom flag [heed flag (plugged.count true) b]) := by
    rw [begin, has, enter, hc, hcount]
    refine ⟨⟨h.held, h.plugged_eq, h.scripts, h.onPresent, _, rfl, hw'⟩, Nat.le_refl _, ?_, ?_⟩
    · intro t ht
      rcases List.mem_append.1 ht with ht | ht
      · obtain ⟨d, hd, rfl⟩ := List.mem_map.1 ht
        exact hlt d hd
      · rw [List.mem_singleton.1 ht]
        trivial
    · have hleave : Task.hotplugs [.leave] = [] := rfl
      rw [← htold]
      show [] ++ Task.hotplugs (_ ++ [.leave]) = _
      rw [List.nil_append, Task.hotplugs_append, hleave, List.append_nil, Task.hotplugs,
        List.filterMap_map]
      rfl
  exact steady_perform_of_calm hcalm

/-- Plugging or unplugging an output changes nothing else, and nobody is told. -/
theorem Steady.connect (h : w.Steady plugged flag divisor) (i : Nat) (b : Bool) :
    (w.perform (.change i { connected := some b } none)).1.Steady (plugged.set i b) flag divisor ∧
      Event.hotplugs (w.perform (.change i { connected := some b } none)).2.events = [] := by
  have hp := w.plugged_setOutput_eq_set i (f := (·.change { connected := some b })) fun _ => rfl
  have hcalm : (w.begin 0 (.change i { connected := some b } none)).Calm (plugged.set i b) flag
      divisor w.listeners.length [] := by
    refine ⟨⟨h.held, ?_, h.scripts, ?_, h.controller⟩, Nat.le_refl _, ?_, rfl⟩
    · rw [← h.plugged_eq]
      exact hp
    · exact h.onPresent_setTile i fun _ _ ht => ht
    · intro t ht
      cases ht
  exact steady_perform_of_calm hcalm

/-- The connection state that the controller holds. -/
def connectionState (w : Wall) : Bool := w.controller.any (·.connected)

theorem Steady.connectionState_eq (h : w.Steady plugged flag divisor) :
    w.connectionState = flag := by
  obtain ⟨c, hc, hw⟩ := h.controller
  rw [connectionState, hc]
  exact hw.connected_eq

end Wall

/-! ### Walls with reports outstanding -/

/-- What happens next: an output is plugged or unplugged, the oldest outstanding report of an output
    comes in, or an operation that is not about connections is performed. -/
inductive Move where
  | connect (output : Nat) (connected : Bool)
  | report (output : Nat)
  | operate (op : Op) (ordinary : op.isOrdinary = true)

/-- A wall, what is still to be reported of each output, oldest first, and what the host was
    told. -/
structure Monitored where
  wall : Wall
  outstanding : List (List Bool)
  told : List Bool := []

namespace Monitored

/-- Performs an operation, and takes down what the host is told. -/
def perform (m : Monitored) (op : Op) : Monitored :=
  let r := m.wall.perform op
  { m with wall := r.1, told := m.told ++ Event.hotplugs r.2.events }

/-- A new wall whose hotplug listener is registered at once. -/
def start (outputs : List Output) (policy : Policy) (display : DisplayId) (tag : String)
    (script : List Op) (limit : Nat) : Monitored :=
  { wall := .create outputs policy, outstanding := outputs.map fun _ => [] : Monitored }.perform
    (.listen .hotplug display tag script limit)

/-- A change leaves a report behind; a move without a report to come in changes nothing. -/
def step (m : Monitored) : Move → Monitored
  | .connect i b =>
    { m.perform (.change i { connected := some b } none) with
      outstanding := m.outstanding.modify i (· ++ [b]) }
  | .report i =>
    match m.outstanding[i]? with
    | some (b :: rest) =>
      { m.perform (.hotplugUpdate b) with outstanding := m.outstanding.set i rest }
    | _ => m
  | .operate op _ => m.perform op

/-- Makes moves, one after the other. -/
def run (m : Monitored) (moves : List Move) : Monitored := moves.foldl step m

/-- The connection states that the controller holds after each of the moves. -/
def states (m : Monitored) : List Move → List Bool
  | [] => []
  | move :: moves => (m.step move).wall.connectionState :: (m.step move).states moves

end Monitored

/-! ### The invariant -/

/-- How connections, the connection state that the controller holds, its number of outputs and the
    outstanding reports hang together. -/
structure Consistent (plugged : List Bool) (flag : Bool) (divisor : Nat)
    (outstanding : List (List Bool)) : Prop where
  length_eq : outstanding.length = plugged.length
  last : ∀ (i : Nat) (q : List Bool), outstanding[i]? = some q → q ≠ [] →
    q.getLast? = plugged[i]?
  up : ∀ i : Nat, outstanding[i]? = some [] → plugged[i]? = some true → flag = true
  settled : (∀ q ∈ outstanding, q = []) → flag = plugged.any id ∧ divisor = plugged.count true

namespace Consistent

variable {plugged : List Bool} {flag : Bool} {divisor : Nat} {outstanding : List (List Bool)}

/-- Nothing is outstanding at first, and the controller has counted the outputs. -/
theorem of_nothing_outstanding {α : Type} {xs : List α} (h : xs.length = plugged.length) :
    Consistent plugged (plugged.any id) (plugged.count true) (xs.map fun _ => []) where
  length_eq := by rw [List.length_map, h]
  last := by
    intro i q hq hne
    obtain ⟨-, -, rfl⟩ := List.mem_map.1 (List.mem_of_getElem? hq)
    exact absurd rfl hne
  up := fun i _ hi => List.any_eq_true.2 ⟨true, List.mem_of_getElem? hi, rfl⟩
  settled := fun _ => ⟨rfl, rfl⟩

/-- A change of an output is the last that there is to report of it. -/
theorem connect (h : Consistent plugged flag divisor outstanding) (i : Nat) (b : Bool) :
    Consistent (plugged.set i b) flag divisor (outstanding.modify i (· ++ [b])) where
  length_eq := by rw [List.length_modify, List.length_set, h.length_eq]
  last := by
    intro j q hq hne
    rcases eq_or_ne i j with rfl | hij
    · rw [List.getElem?_modify_eq] at hq
      obtain ⟨p, hp, rfl⟩ := Option.map_eq_some_iff.1 hq
      have hi := (List.getElem?_eq_some_iff.1 hp).1
      rw [List.getLast?_concat, List.getElem?_set_self (h.length_eq ▸ hi)]
    · rw [List.getElem?_modify_ne _ _ hij] at hq
      rw [List.getElem?_set_ne hij]
      exact h.last j q hq hne
  up := by
    intro j hq hp
    rcases eq_or_ne i j with rfl | hij
    · rw [List.getElem?_modify_eq] at hq
      obtain ⟨p, -, hp⟩ := Option.map_eq_some_iff.1 hq
      exact absurd hp (List.append_ne_nil_of_right_ne_nil _ (List.cons_ne_nil b []))
    · rw [List.getElem?_modify_ne _ _ hij] at hq
      rw [List.getElem?_set_ne hij] at hp
      exact h.up j hq hp
  settled := by
    -- with nothing outstanding afterwards, there is no such output
    intro hq
    have hi : outstanding.length ≤ i := by
      by_contra hlt
      have hget : (outstanding.modify i (· ++ [b]))[i]? = some (outstanding[i] ++ [b]) := by
        rw [List.getElem?_modify_eq, List.getElem?_eq_getElem (Nat.lt_of_not_le hlt)]
        rfl
      exact List.append_ne_nil_of_right_ne_nil _ (List.cons_ne_nil b [])
        (hq _ (List.mem_of_getElem? hget))
    rw [List.modify_eq_self hi] at hq
    rw [List.set_eq_of_length_le (h.length_eq ▸ hi)]
    exact h.settled hq

/-- The controller takes in the oldest report of an output. -/
theorem report (h : Consistent plugged flag divisor outstanding) {i : Nat} {b : Bool}
    {rest : List Bool} (hi : outstanding[i]? = some (b :: rest)) :
    Consistent plugged (heed flag (plugged.count true) b) (plugged.count true)
      (outstanding.set i rest) := by
  have hlt := (List.getElem?_eq_some_iff.1 hi).1
  have hlast := h.last i _ hi (List.cons_ne_nil b rest)
  have hup : ∀ j : Nat, (outstanding.set i rest)[j]? = some [] → plugged[j]? = some true →
      heed flag (plugged.count true) b = true := by
    intro j hq hp
    have hpos : plugged.count true ≠ 0 :=
      Nat.pos_iff_ne_zero.1 (List.count_pos_iff.2 (List.mem_of_getElem? hp))
    rw [heed, if_neg hpos, Bool.or_eq_true]
    rcases eq_or_ne i j with rfl | hij
    · rw [List.getElem?_set_self hlt] at hq
      rw [Option.some.inj hq, hp] at hlast
      exact .inr (Option.some.inj hlast)
    · rw [List.getElem?_set_ne hij] at hq
      exact .inl (h.up j hq hp)
  refine ⟨by rw [List.length_set, h.length_eq], ?_, hup, fun hall => ⟨?_, rfl⟩⟩
  · intro j q hq hne
    rcases eq_or_ne i j with rfl | hij
    · rw [List.getElem?_set_self hlt] at hq
      obtain rfl := Option.some.inj hq
      rw [← hlast, List.getLast?_cons_of_ne_nil hne]
    · rw [List.getElem?_set_ne hij] at hq
      exact h.last j q hq hne
  · have hempty : ∀ j : Nat, j < plugged.length → (outstanding.set i rest)[j]? = some [] := by
      intro j hj
      have hj' : j < (outstanding.set i rest).length := by rwa [List.length_set, h.length_eq]
      rw [List.getElem?_eq_getElem hj', hall _ (List.getElem_mem hj')]
    cases hany : plugged.any id with
    | true =>
      obtain ⟨x, hx, hxt⟩ := List.any_eq_true.1 hany
      obtain ⟨j, hj⟩ := List.mem_iff_getElem?.1 hx
      obtain rfl : x = true := hxt
      exact hup j (hempty j (List.getElem?_eq_some_iff.1 hj).1) hj
    | false =>
      -- no output is connected any more, and the report is the last one of its output
      have hnot : ∀ x ∈ plugged, x = false := by
        intro x hx
        exact Bool.eq_false_iff.2 (List.any_eq_false.1 hany x hx)
      have hzero : plugged.count true = 0 :=
        List.count_eq_zero_of_not_mem fun hx => Bool.noConfusion (hnot true hx)
      have hrest := hempty i (h.length_eq ▸ hlt)
      rw [List.getElem?_set_self hlt] at hrest
      rw [Option.some.inj hrest, List.getLast?_singleton] at hlast
      rw [heed, if_pos hzero]
      exact hnot b (List.mem_of_getElem? hlast.symm)

end Consistent

/-! ### Runs -/

/-- The connections of a wall as its controller sees them are as they are. -/
structure Wall.Agrees (w : Wall) (c : Controller) : Prop where
  connected_eq : c.connected = w.isConnected
  divisor_eq : c.cycle.divisor = w.connectedCount
  awaited_of_pos : 0 < w.connectedCount → 1 ≤ c.cycle.awaited ∧ c.cycle.awaited ≤ c.cycle.divisor
  awaited_of_zero : w.connectedCount = 0 → c.cycle.awaited = 0

namespace Monitored

/-- A steady wall whose outstanding reports hang together with its connections. -/
structure Sound (plugged : List Bool) (flag : Bool) (divisor : Nat) (m : Monitored) : Prop where
  steady : m.wall.Steady plugged flag divisor
  consistent : Consistent plugged flag divisor m.outstanding

variable {plugged : List Bool} {flag : Bool} {divisor : Nat} {m : Monitored}

/-- A move leaves a sound wall sound, and the host is told if it turns the connection state. -/
theorem Sound.step (h : m.Sound plugged flag divisor) (move : Move) :
    ∃ plugged' flag' divisor', (m.step move).Sound plugged' flag' divisor' ∧
      (m.step move).told = m.told ++ turnsFrom flag [flag'] := by
  have hself : m.told = m.told ++ turnsFrom flag [flag] := by
    rw [turnsFrom_self, List.append_nil]
  cases move with
  | connect i b =>
    obtain ⟨hs, ht⟩ := h.steady.connect i b
    refine ⟨_, _, _, ⟨hs, h.consistent.connect i b⟩, ?_⟩
    rw [turnsFrom_self, ← ht]
    rfl
  | report i =>
    rw [Monitored.step]
    dsimp only
    split
    · next b rest hi =>
      obtain ⟨hs, ht⟩ := h.steady.hotplugUpdate b
      refine ⟨_, _, _, ⟨hs, h.consistent.report hi⟩, ?_⟩
      rw [← ht]
      rfl
    · exact ⟨_, _, _, h, hself⟩
  | operate op hop =>
    obtain ⟨hs, ht⟩ := h.steady.perform hop
    refine ⟨_, _, _, ⟨hs, h.consistent⟩, ?_⟩
    rw [turnsFrom_self, ← ht]
    rfl

/-- The host is told the turns of the connection state over a whole run. -/
theorem Sound.run (h : m.Sound plugged flag divisor) (moves : List Move) :
    (∃ plugged' flag' divisor', (m.run moves).Sound plugged' flag' divisor') ∧
      (m.run moves).told = m.told ++ turnsFrom flag (m.states moves) := by
  induction moves generalizing plugged flag divisor m with
  | nil => exact ⟨⟨_, _, _, h⟩, (List.append_nil _).symm⟩
  | cons move moves ih =>
    obtain ⟨plugged', flag', divisor', hs, ht⟩ := h.step move
    obtain ⟨hrun, htold⟩ := ih hs
    refine ⟨hrun, ?_⟩
    rw [states, hs.steady.connectionState_eq, turnsFrom_cons, ← List.append_assoc, ← ht]
    exact htold

/-- Without outstanding reports, the controller sees the connections as they are. -/
theorem Sound.agrees (h : m.Sound plugged flag divisor) (hm : ∀ q ∈ m.outstanding, q = []) :
    ∃ c, m.wall.controller = some c ∧ m.wall.Agrees c := by
  obtain ⟨c, hc, hw⟩ := h.steady.controller
  obtain ⟨hflag, hdivisor⟩ := h.consistent.settled hm
  have hle := hw.sound.awaited_le
  have hcount : c.cycle.divisor = m.wall.connectedCount := by
    rw [hw.divisor_eq, hdivisor, Wall.connectedCount_eq, h.steady.plugged_eq]
  refine ⟨c, hc, ?_, hcount, fun hpos => ⟨?_, hle⟩, ?_⟩
  · rw [hw.connected_eq, hflag, Wall.isConnected_eq, h.steady.plugged_eq]
  · exact hw.sound.awaited_pos (hcount ▸ hpos)
  · intro hzero
    rw [hcount, hzero] at hle
    exact Nat.le_zero.1 hle

variable (outputs : List Output) (policy : Policy) (display : DisplayId) (tag : String)
  (script : List Op) (limit : Nat)

/-- A wall is sound from the start: its controller has counted the outputs. -/
theorem sound_start (hs : Op.areOrdinary script = true) :
    (start outputs policy display tag script limit).Sound (outputs.map (·.connected))
        (outputs.any (·.connected)) (outputs.countP (·.connected)) ∧
      (start outputs policy display tag script limit).told = [] := by
  have hany : outputs.any (·.connected) = (outputs.map (·.connected)).any id := by
    rw [List.any_map]
    rfl
  have hcount : outputs.countP (·.connected) = (outputs.map (·.connected)).count true := by
    rw [List.count, List.countP_map]
    exact List.countP_congr fun o _ => by simp
  have hflag : decide (0 < outputs.countP (·.connected)) = outputs.any (·.connected) := by
    rw [Bool.eq_iff_iff, decide_eq_true_iff, List.countP_pos_iff, List.any_eq_true]
  have hp := (Wall.create outputs policy).plugged_setOutputs (f := (·.register .hotplug))
    fun o => by simp
  have hcalm : ((Wall.create outputs policy).begin 0
      (.listen .hotplug display tag script limit)).Calm (outputs.map (·.connected))
        (outputs.any (·.connected)) (outputs.countP (·.connected)) 0 [] := by
    refine Effect.calm_of_ordinary ?_ (Nat.zero_le _) (List.forall_mem_nil _) ?_
    · refine ⟨rfl, hp.trans ?_, ?_, ?_, _, rfl, hflag, rfl, Vsync.Cycle.sound_fresh _, _, rfl,
        Nat.zero_lt_one⟩
      · simp [Wall.plugged, Wall.create]
      · intro l hl
        rw [List.mem_singleton.1 hl]
        exact hs
      · intro t ht
        obtain ⟨u, hu, rfl⟩ := List.mem_map.1 ht
        obtain ⟨o, -, rfl⟩ := List.mem_map.1 hu
        rfl
    · intro x hx
      obtain ⟨i, hi, rfl⟩ := List.mem_mapIdx.1 hx
      rfl
  obtain ⟨hsteady, htold⟩ := Wall.steady_perform_of_calm hcalm
  refine ⟨⟨hsteady, ?_⟩, htold⟩
  rw [hany, hcount]
  exact .of_nothing_outstanding (List.length_map _).symm

/-- Whenever no report is outstanding, the controller sees the connections as they are; and over a
    whole run the host is told each turn of the connection state once, so that what it is told
    alternates, beginning with the opposite of what was true at first. -/
theorem run_agrees (hs : Op.areOrdinary script = true) (moves : List Move) :
    let m := start outputs policy display tag script limit
    ((∀ q ∈ (m.run moves).outstanding, q = []) →
      ∃ c, (m.run moves).wall.controller = some c ∧ (m.run moves).wall.Agrees c) ∧
    (m.run moves).told = turnsFrom (outputs.any (·.connected)) (m.states moves) ∧
    List.IsChain (fun x y => y = !x) (outputs.any (·.connected) :: (m.run moves).told) := by
  intro m
  obtain ⟨hstart, hnil⟩ := sound_start outputs policy display tag script limit hs
  obtain ⟨⟨plugged, flag, divisor, hrun⟩, htold⟩ := hstart.run moves
  have ht : (m.run moves).told = turnsFrom (outputs.any (·.connected)) (m.states moves) := by
    rw [htold, hnil]
    rfl
  refine ⟨hrun.agrees, ht, ?_⟩
  rw [ht]
  exact isChain_turnsFrom _ _

/-- Both outputs are unplugged, and the first one has been plugged in for a moment: when that is
    reported, the wall counts as connected though no output is any more. -/
def unplugging : List Move :=
  [.connect 1 false, .connect 0 false, .connect 0 true, .connect 0 false, .report 0, .report 1,
    .report 0, .operate (.vsyncUpdate 7) rfl, .report 0]

theorem run_agrees_unplugging :
    let m := start [{}, {}] {} {} "wall" [.refreshUpdate] 1
    Op.areOrdinary [.refreshUpdate] = true ∧
      (∃ c, (m.run unplugging).wall.controller = some c ∧ (m.run unplugging).wall.Agrees c) ∧
      m.states unplugging = [true, true, true, true, false, false, true, true, false] ∧
      (m.run unplugging).told = [false, true, false] := by
  have hall := run_agrees [{}, {}] {} {} "wall" [.refreshUpdate] 1 rfl unplugging
  have hstates : (start [{}, {}] {} {} "wall" [.refreshUpdate] 1).states unplugging =
      [true, true, true, true, false, false, true, true, false] := by decide
  refine ⟨rfl, hall.1 (by decide), hstates, ?_⟩
  rw [hall.2.1, hstates]
  rfl

end Monitored

end VideoWall
