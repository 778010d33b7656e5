import VideoWall.Proofs.Custody
import VideoWall.Proofs.Decisions

/-! A cycle that has begun has somewhere to go.

    A cycle begins with a timestamp that counts, so vsync is enabled then and somebody listens for
    it. From then on the listener may be replaced but is never taken away, and to disable vsync
    drops the cycle: `Demand.collects_meet` says that whatever is demanded of a controller keeps it
    that way. So a hotplug may cut short every cycle that has begun, and asks the counters alone
    whether to. A vsync is told in the very next step after it was decided on, while the controller
    is still there and as it was. -/

namespace VideoWall

open Vsync (Act Ledger)

/-- A cycle that stands for an open ledger is cut short as its counters say, and only ever with
    timestamps to divide by. -/
theorem Vsync.Ledger.cutShort_cycle {l : Ledger} (h : l.Open) (outputs : Nat) (flush : Bool) :
    l.cycle.cutShort outputs flush =
      if flush = true ∧ l.cycle.pending = true ∧ 0 < outputs ∧ l.cycle.awaited = outputs then
        some (l.cycle.total.tdiv (l.cycle.divisor - l.cycle.awaited : Nat))
      else none := by
  have hne : l.cycle.pending = true → (l.cycle.divisor - l.cycle.awaited != 0) = true := by
    intro hp
    have hs : l.samples ≠ [] := by simpa [cycle] using hp
    have hc : l.cycle.divisor - l.cycle.awaited = l.samples.length := collected_eq h hs
    rw [hc, bne_iff_ne]
    exact fun h0 => hs (List.length_eq_zero_iff.1 h0)
  rw [Cycle.cutShort]
  refine if_congr ?_ rfl rfl
  simp only [Bool.and_eq_true, decide_eq_true_eq, beq_iff_eq, and_assoc]
  constructor
  · rintro ⟨hf, hp, h0, ha, -⟩
    exact ⟨hf, hp, h0, ha⟩
  · rintro ⟨hf, hp, h0, ha⟩
    exact ⟨hf, hp, h0, ha, hne hp⟩

/-! ### Controllers that collect -/

/-- The cycle stands for an open ledger, and if it has begun then timestamps count. -/
structure Controller.Collects (c : Controller) : Prop where
  ledger : ∃ l : Ledger, l.Open ∧ c.cycle = l.cycle
  counts : c.cycle.pending = true → c.counts = true

/-- Vsync is enabled, and the delivery is for who listens for it. -/
structure Controller.Hears (c : Controller) (d : Delivery) : Prop where
  enabled : c.vsyncEnabled = true
  listener_eq : c.vsyncListener = some d.listener

namespace Controller

variable {c c' : Controller} {a : Option Act} {r : Controller × List Delivery}

theorem Tuned.counts_eq (h : c.Tuned a c') : c'.counts = c.counts := by
  rw [counts, counts, h.enabled_eq, h.listener_eq]

theorem collects_of_fresh {n : Nat} (h : c.cycle = .fresh n) : c.Collects where
  ledger := ⟨⟨n, []⟩, .inl rfl, h⟩
  counts := fun hp => by
    rw [h] at hp
    cases hp

namespace Collects

theorem of_eq (h : c.Collects) (hc : c'.cycle = c.cycle)
    (hk : c.counts = true → c'.counts = true) : c'.Collects :=
  ⟨hc ▸ h.ledger, fun hp => hk (h.counts (hc ▸ hp))⟩

/-- Whatever acts on the cycle, as long as it counts or the cycle has not begun then. -/
theorem of_tuned (h : c.Collects) (ht : c.Tuned a c')
    (ha : ∀ b, a = some b → c.counts = true ∨ (c.cycle.act b).1.pending = false) :
    c'.Collects := by
  cases a with
  | none => exact h.of_eq ht.cycle_eq fun hk => ht.counts_eq.trans hk
  | some b =>
    have hcycle : c'.cycle = (c.cycle.act b).1 := ht.cycle_eq
    constructor
    · obtain ⟨l, hl, hc⟩ := h.ledger
      refine ⟨(l.act b).1, Ledger.open_act hl b, ?_⟩
      rw [hcycle, hc, Ledger.cycle_act hl]
    · intro hp
      rw [hcycle] at hp
      rw [ht.counts_eq]
      rcases ha b rfl with hk | hn
      · exact hk
      · rw [hn] at hp
        cases hp

/-- While vsync is disabled the cycle has not begun. -/
theorem cycle_eq_fresh (h : c.Collects) (hd : c.vsyncEnabled = false) :
    c.cycle = .fresh c.cycle.divisor := by
  obtain ⟨l, -, hl⟩ := h.ledger
  have hs : l.samples = [] := by
    have hp : ¬ c.cycle.pending = true := by
      intro hp
      have hk := h.counts hp
      rw [Controller.counts, hd] at hk
      cases hk
    simpa [hl, Ledger.cycle] using hp
  rw [hl, Ledger.cycle, hs]
  rfl

/-- To ask whether timestamps count never keeps a cycle from being cut short. -/
theorem cutShort_counts (h : c.Collects) (outputs : Nat) :
    c.cycle.cutShort outputs c.counts =
      if c.cycle.pending = true ∧ 0 < outputs ∧ c.cycle.awaited = outputs then
        some (c.cycle.total.tdiv (c.cycle.divisor - c.cycle.awaited : Nat))
      else none := by
  obtain ⟨l, hl, hc⟩ := h.ledger
  have hk := h.counts
  rw [hc] at hk ⊢
  rw [Ledger.cutShort_cycle hl]
  exact if_congr ⟨fun hx => hx.2, fun hx => ⟨hk hx.1, hx⟩⟩ rfl rfl

theorem cutShort_eq (h : c.Collects) (outputs : Nat) :
    c.cycle.cutShort outputs c.counts = c.cycle.cutShort outputs true := by
  obtain ⟨l, hl, hc⟩ := h.ledger
  rw [h.cutShort_counts, hc, Ledger.cutShort_cycle hl]
  exact if_congr (by simp) rfl rfl

end Collects

/-- Nobody is told about vsync unless timestamps count. -/
theorem Decides.hears (h : c.Decides a r) (hn : c.counts = false → c.yields? a = none)
    {d : Delivery} (hd : d ∈ r.2) (hs : d.notice.vsync?.isSome = true) : r.1.Hears d := by
  have hk : c.counts = true := by
    by_contra hk
    have hnil := h.vsyncs_eq
    rw [hn (Bool.eq_false_iff.2 hk)] at hnil
    rw [List.filterMap_eq_nil_iff.1 hnil d hd] at hs
    cases hs
  rw [counts, Bool.and_eq_true] at hk
  exact ⟨h.tuned.enabled_eq.trans hk.1, h.tuned.listener_eq.trans (h.heard d hd hs)⟩

theorem yields?_vblank (time : Int) (h : c.counts = false) :
    c.yields? (if c.counts then some (.observe time) else none) = none := by
  rw [h]
  rfl

theorem yields?_hotplug (outputs : Nat) (h : c.counts = false) :
    c.yields? (some (.retarget outputs c.counts)) = none := by
  rw [h]
  rfl

/-- A hotplug tells of the cycle that it cuts short, before anything else and only then. -/
theorem Collects.hotplug_told (h : c.Collects) (outputs : Nat) (connected : Bool) :
    (c.cycle.pending = true ∧ 0 < outputs ∧ c.cycle.awaited = outputs →
      ∃ k rest, c.vsyncListener = some k ∧
        (c.hotplug outputs connected).2 = ⟨k, c.display,
          .vsync (c.cycle.total.tdiv (c.cycle.divisor - c.cycle.awaited : Nat))⟩ :: rest) ∧
    (¬ (c.cycle.pending = true ∧ 0 < outputs ∧ c.cycle.awaited = outputs) →
      (c.hotplug outputs connected).2.filterMap (·.notice.vsync?) = []) := by
  have hcut := h.cutShort_counts outputs
  constructor
  · intro hx
    rw [if_pos hx] at hcut
    have hk := h.counts hx.1
    rw [Controller.counts, Bool.and_eq_true, Option.isSome_iff_exists] at hk
    obtain ⟨-, k, hl⟩ := hk
    rw [hotplug, ← Controller.counts]
    dsimp only [Vsync.Cycle.retarget]
    rw [hcut, hl]
    dsimp only
    split
    · exact ⟨k, _, rfl, rfl⟩
    · exact ⟨k, _, rfl, rfl⟩
  · intro hx
    rw [if_neg hx] at hcut
    rw [(c.decides_hotplug outputs connected).vsyncs_eq]
    exact congrArg Option.toList hcut

end Controller

namespace Demand

variable {c : Controller}

/-- Whatever is demanded, a cycle that has begun has somewhere to go. -/
theorem collects_meet (h : c.Collects) (demand : Demand) : (demand.meet c).1.Collects := by
  cases demand with
  | configure config mode => exact h.of_eq rfl id
  | power mode => exact h.of_eq rfl id
  | refresh => exact h
  | control enabled =>
    rw [meet, Controller.control]
    split
    · exact h
    · exact Controller.collects_of_fresh rfl
  | listen channel listener display =>
    refine h.of_eq ?_ fun hk => ?_
    · cases channel <;> rfl
    · rw [Controller.counts, Bool.and_eq_true] at hk
      cases channel <;>
        simp [meet, Controller.listen, Controller.listenVsync, Controller.listenRefresh,
          Controller.listenHotplug, Controller.counts, hk]
  | frame refreshes =>
    rw [meet, Controller.frame]
    split
    · exact h.of_eq rfl id
    · exact h
  | vblank time =>
    refine h.of_tuned (c.decides_vblank time).tuned fun b hb => .inl ?_
    by_contra hk
    rw [if_neg hk] at hb
    cases hb
  | hotplug outputs connected =>
    refine h.of_tuned (c.decides_hotplug outputs connected).tuned fun b hb => .inr ?_
    cases hb
    rfl

/-- Who is told about vsync listens for it, and vsync is enabled. -/
theorem hears_of_mem_meet {demand : Demand} {d : Delivery} (hd : d ∈ (demand.meet c).2)
    (hs : d.notice.vsync?.isSome = true) : (demand.meet c).1.Hears d := by
  cases demand with
  | configure | power | control | listen | frame => cases hd
  | vblank time => exact (c.decides_vblank time).hears (Controller.yields?_vblank time) hd hs
  | hotplug outputs connected =>
    exact (c.decides_hotplug outputs connected).hears (Controller.yields?_hotplug outputs) hd hs
  | refresh => exact c.decides_refresh.hears (fun _ => rfl) hd hs

/-- Only the first notice is about vsync. -/
theorem vsyncs_tail_meet (demand : Demand) (c : Controller) :
    (demand.meet c).2.tail.filterMap (·.notice.vsync?) = [] := by
  cases demand with
  | configure | power | control | listen | frame => rfl
  | vblank time => exact (c.decides_vblank time).tail_eq
  | hotplug outputs connected => exact (c.decides_hotplug outputs connected).tail_eq
  | refresh => exact c.decides_refresh.tail_eq

end Demand

/-! ### Walls -/

theorem Task.vsyncs_eq (ts : List Task) :
    vsyncs ts = (deliveries ts).filterMap (·.notice.vsync?) := by
  rw [vsyncs, deliveries, List.filterMap_filterMap]
  exact congrArg (List.filterMap · ts) (funext fun t => by cases t <;> rfl)

theorem Task.mem_deliveries_of_mem_tail {ts : List Task} {d : Delivery}
    (h : d ∈ deliveries ts.tail) : d ∈ deliveries ts :=
  (List.Sublist.filterMap _ (List.tail_sublist ts)).mem h

/-- Whether a delivery is about vsync. -/
def Delivery.isVsync (d : Delivery) : Bool := d.notice.vsync?.isSome

namespace Wall

variable {w : Wall} {t : Task} {ts : List Task} {es : List Event} {demand : Demand}

/-- Notes every vsync that is told, with the controller at that time. -/
def hearing (w : Wall) (t : Task) (s : List (Delivery × Option Controller)) :
    List (Delivery × Option Controller) :=
  s ++ (t.delivery?.toList.filter (·.isVsync)).map fun d => (d, w.controller)

/-- Only a frame demands anything of a controller that may go with the same step. -/
theorem touches_of_demand? (h : w.demand? t = some demand)
    (hd : ∀ refreshes, demand ≠ .frame refreshes) : w.touches t = false := by
  cases t with
  | perform op =>
    cases op with
    | present layers upload =>
      obtain ⟨-, he⟩ := Option.ite_none_right_eq_some.1 h
      exact absurd (Option.some.inj he).symm (hd _)
    | drop => cases h
    | _ => rfl
  | item => rfl
  | _ => cases h

/-- A controller of which something is demanded becomes what the demand makes of it. -/
theorem controller_of_demand? {c : Controller} {mark : Nat} {told : Option Delivery}
    (hdec : (w.exec mark t).Decides w told (w.demand? t)) (h : w.demand? t = some demand)
    (hd : ∀ refreshes, demand ≠ .frame refreshes) (hc : w.controller = some c) :
    (w.exec mark t).wall.controller = some (demand.meet c).1 := by
  have hgone := (minds_exec mark (touches_of_demand? h hd)).gone_iff
  cases hc' : (w.exec mark t).wall.controller with
  | none => cases hc.symm.trans (hgone.1 hc')
  | some c' =>
    obtain ⟨c₀, hc₀, rfl⟩ := hdec.controller c' hc'
    obtain rfl := Option.some.inj (hc.symm.trans hc₀)
    rw [h]
    rfl

/-- A cycle that has begun has somewhere to go; at most the first task tells somebody about vsync,
    and that is who listens for it while it is enabled; and so it was whenever a vsync was told. -/
structure Heard (w : Wall) (ts : List Task) (es : List Event)
    (s : List (Delivery × Option Controller)) : Prop where
  collects : ∀ c, w.controller = some c → c.Collects
  heard : ∀ d ∈ Task.deliveries ts, d.isVsync = true → ∃ c, w.controller = some c ∧ c.Hears d
  tail : ∀ d ∈ Task.deliveries ts.tail, d.isVsync = false
  told_eq : (Event.deliveries es).filter (·.isVsync) = s.map Prod.fst
  noted : ∀ x ∈ s, ∃ c, x.2 = some c ∧ c.Hears x.1

/-- What is due is what the controller makes of the demand. -/
theorem exists_meet_of_mem_due {demanded : Option Demand} {d : Delivery}
    (h : d ∈ w.due demanded) :
    ∃ demand c, demanded = some demand ∧ w.controller = some c ∧
      w.due demanded = (demand.meet c).2 := by
  cases demanded with
  | none => cases h
  | some demand =>
    cases hc : w.controller with
    | none =>
      rw [due, hc] at h
      cases h
    | some c =>
      refine ⟨demand, c, rfl, rfl, ?_⟩
      rw [due, hc]
      rfl

/-- Only the first notice that is due is about vsync. -/
theorem isVsync_of_mem_tail_due {demanded : Option Demand} {d : Delivery}
    (h : d ∈ (w.due demanded).tail) : d.isVsync = false := by
  obtain ⟨demand, c, -, -, hdue⟩ := exists_meet_of_mem_due (List.mem_of_mem_tail h)
  rw [hdue] at h
  have hnone := List.filterMap_eq_nil_iff.1 (demand.vsyncs_tail_meet c) d h
  rw [Delivery.isVsync, hnone]
  rfl

/-- A vsync that is due is for whoever listens after the step. -/
theorem hears_of_mem_due {mark : Nat} {told : Option Delivery}
    (hdec : (w.exec mark t).Decides w told (w.demand? t)) {d : Delivery}
    (h : d ∈ w.due (w.demand? t)) (hs : d.isVsync = true) :
    ∃ c, (w.exec mark t).wall.controller = some c ∧ c.Hears d := by
  obtain ⟨demand, c, hdem, hc, hdue⟩ := exists_meet_of_mem_due h
  rw [hdue] at h
  refine ⟨_, controller_of_demand? hdec hdem ?_ hc, Demand.hears_of_mem_meet h hs⟩
  rintro refreshes rfl
  cases h

/-- A task is done. -/
theorem Heard.exec {s : List (Delivery × Option Controller)} (h : w.Heard (t :: ts) es s)
    (hdec : (w.exec es.length t).Decides w t.delivery? (w.demand? t)) :
    (w.exec es.length t).wall.Heard ((w.exec es.length t).tasks ++ ts)
      (es ++ (w.exec es.length t).events) (w.hearing t s) := by
  obtain ⟨rest, hrest, hnil⟩ := hdec.tasks
  have hdue : Task.deliveries ((w.exec es.length t).tasks ++ ts) =
      w.due (w.demand? t) ++ Task.deliveries ts := by
    rw [hrest, Task.deliveries_append, Task.deliveries_append, Task.deliveries_map_deliver, hnil,
      List.append_nil]
  constructor
  · intro c' hc'
    obtain ⟨c, hc, rfl⟩ := hdec.controller c' hc'
    cases w.demand? t with
    | none => exact h.collects c hc
    | some demand => exact demand.collects_meet (h.collects c hc)
  · intro d hd hs
    rw [hdue] at hd
    rcases List.mem_append.1 hd with hd | hd
    · exact hears_of_mem_due hdec hd hs
    · rw [h.tail d hd] at hs
      cases hs
  · intro d hd
    have hmem : d ∈ (w.due (w.demand? t)).tail ++ Task.deliveries ts := by
      cases hds : w.due (w.demand? t) with
      | nil =>
        rw [hds] at hrest hdue
        rw [List.tail_nil, List.nil_append, ← List.nil_append (Task.deliveries ts), ← hdue]
        exact Task.mem_deliveries_of_mem_tail hd
      | cons d' ds =>
        rw [hds] at hrest
        rw [hrest] at hd
        simpa [Task.deliveries_append, Task.deliveries_map_deliver, hnil] using hd
    rcases List.mem_append.1 hmem with hd | hd
    · exact isVsync_of_mem_tail_due hd
    · exact h.tail d hd
  · rw [Event.deliveries_append, List.filter_append, h.told_eq, hdec.events, hearing,
      List.map_append, List.map_map]
    simp [Function.comp_def]
  · intro x hx
    rw [hearing] at hx
    rcases List.mem_append.1 hx with hx | hx
    · exact h.noted x hx
    · obtain ⟨d, hd, rfl⟩ := List.mem_map.1 hx
      obtain ⟨hd, hs⟩ := List.mem_filter.1 hd
      refine h.heard d (List.mem_filterMap.2 ⟨t, List.mem_cons_self, Option.mem_toList.1 hd⟩) hs

/-- Over whatever a new wall comes to. -/
theorem Brings.heard {outputs : List Output} {policy : Policy}
    {n : Noted (List (Delivery × Option Controller))}
    (h : (Wall.create outputs policy).Brings hearing [] n) :
    n.run.wall.Heard n.run.tasks n.run.events n.notes ∧ n.run.wall.Addresses n.run.tasks := by
  refine h.deciding (P := Heard) ?_ ?_ ?_ ?_ ?_ ?_
  · refine ⟨?_, List.forall_mem_nil _, List.forall_mem_nil _, rfl, List.forall_mem_nil _⟩
    rintro c ⟨⟩
    exact Controller.collects_of_fresh rfl
  · intro v op es s hs
    exact ⟨hs.collects, hs.heard, hs.tail, hs.told_eq, hs.noted⟩
  · intro v ts op r es s hs
    refine ⟨hs.collects, fun d hd => hs.heard d ?_, fun d hd => hs.tail d ?_, hs.told_eq, hs.noted⟩
    · rw [Task.deliveries_concat_report]
      exact hd
    · cases ts with
      | nil => cases hd
      | cons t ts =>
        rw [List.cons_append, List.tail_cons, Task.deliveries_concat_report]
        exact hd
  · intro v tiles es s hs
    have hnil := Task.deliveries_map_poll tiles
    refine ⟨hs.collects, fun d hd => ?_, fun d hd => ?_, hs.told_eq, hs.noted⟩
    · rw [hnil] at hd
      cases hd
    · have hmem := Task.mem_deliveries_of_mem_tail hd
      rw [hnil] at hmem
      cases hmem
  · intro v mark ts es s hs
    refine ⟨hs.collects, hs.heard, fun d hd => hs.tail d (Task.mem_deliveries_of_mem_tail hd),
      ?_, ?_⟩
    · rw [Event.deliveries_take_grouped, hs.told_eq, hearing]
      exact (congrArg _ (List.append_nil s)).symm
    · rw [hearing]
      exact (List.append_nil s).symm ▸ hs.noted
  · exact fun v t ts es s _ hdec hs => hs.exec hdec

/-- A call on the controller leaves the outputs as they are. -/
theorem connectedCount_enter (w : Wall) (decide : Controller → Controller × List Delivery) :
    (w.enter decide).wall.connectedCount = w.connectedCount := by
  rcases w.enter_cases decide with ⟨-, he⟩ | ⟨c, -, he⟩ <;> rw [he]
  rfl

/-- A hotplug is told with as many outputs as are connected by then. -/
theorem connectedCount_of_demand? {op : Op} {outputs : Nat} {connected : Bool} (mark : Nat)
    {c : Controller} (hc : w.controller = some c)
    (h : w.demand? (.perform op) = some (.hotplug outputs connected)) :
    (w.exec mark (.perform op)).wall.connectedCount = outputs := by
  cases op with
  | hotplugUpdate connected' =>
    obtain ⟨hh, he⟩ := Option.ite_none_right_eq_some.1 h
    cases he
    rw [exec, begin, asHolder, hh, hc]
    exact w.connectedCount_enter _
  | plug i connected' =>
    obtain ⟨hr, he⟩ := Option.ite_none_right_eq_some.1 h
    cases he
    rw [exec, begin]
    dsimp only
    rw [through, if_pos hr]
    exact connectedCount_enter ..
  | _ => simp [demand?] at h

end Wall

/-- Whatever a new wall comes to, by whatever operations of the host and of scripts: a cycle that
    has begun has somewhere to go, that is, vsync is enabled and somebody listens for it; so while
    vsync is disabled the cycle has not begun, and a hotplug asks nothing but the counters whether
    to cut it short. Every vsync was told while it was enabled, to who then listened for it, and a
    notice that is due is told by the next step. A hotplug leaves one vsync to be told, the mean of
    what was collected and before anything else, if the cycle has begun and as many outputs are
    connected by then as timestamps are awaited, and none otherwise. -/
theorem Wall.Brings.pending_has_listener {outputs : List Output} {policy : Policy}
    {n : Noted (List (Delivery × Option Controller))}
    (h : (Wall.create outputs policy).Brings hearing [] n) :
    (∀ c, n.run.wall.controller = some c →
      (c.cycle.pending = true → c.vsyncEnabled = true ∧ c.vsyncListener.isSome = true) ∧
      (c.vsyncEnabled = false → c.cycle = .fresh c.cycle.divisor) ∧
      ∀ m, c.cycle.cutShort m c.counts = c.cycle.cutShort m true) ∧
    ((Event.deliveries n.run.events).filter (·.isVsync) = n.notes.map Prod.fst ∧
      ∀ x ∈ n.notes, ∃ c, x.2 = some c ∧ c.vsyncEnabled = true ∧
        c.vsyncListener = some x.1.listener) ∧
    (∀ d ts, n.run.tasks = .deliver d :: ts →
      Event.deliveries (n.next hearing).run.events = Event.deliveries n.run.events ++ [d]) ∧
    ∀ op c m connected mark, n.run.wall.controller = some c →
      n.run.wall.demand? (.perform op) = some (.hotplug m connected) →
      let e := n.run.wall.exec mark (.perform op)
      let cut := c.cycle.pending = true ∧ 0 < e.wall.connectedCount ∧
        c.cycle.awaited = e.wall.connectedCount
      (cut → ∃ k rest, c.vsyncListener = some k ∧
        e.tasks = .deliver ⟨k, c.display,
          .vsync (c.cycle.total.tdiv (c.cycle.divisor - c.cycle.awaited : Nat))⟩ :: rest ∧
        Task.vsyncs rest = []) ∧
      (¬ cut → Task.vsyncs e.tasks = []) := by
  obtain ⟨hheard, hthere⟩ := h.heard
  refine ⟨fun c hc => ?_, ⟨hheard.told_eq, fun x hx => ?_⟩, fun d ts hts => ?_, ?_⟩
  · have hcol := hheard.collects c hc
    refine ⟨fun hp => ?_, hcol.cycle_eq_fresh, hcol.cutShort_eq⟩
    exact Bool.and_eq_true_iff.1 (hcol.counts hp)
  · obtain ⟨c, hc, hk⟩ := hheard.noted x hx
    exact ⟨c, hc, hk.enabled, hk.listener_eq⟩
  · rw [hts] at hthere
    have hevents : (n.next hearing).run.events =
        n.run.events ++ (n.run.wall.exec n.run.events.length (.deliver d)).events := by
      rw [Noted.next, Run.next, hts]
    rw [hevents, Event.deliveries_append, (hthere.decides _).events]
    rfl
  · intro op c m connected mark hc hdem e cut
    have hdec := decides_exec (w := n.run.wall) mark (t := .perform op) fun d hd => by cases hd
    obtain ⟨rest, hrest, hnil⟩ := hdec.tasks
    have hdue : n.run.wall.due (some (.hotplug m connected)) = (c.hotplug m connected).2 := by
      rw [due, hc]
      rfl
    rw [hdem, hdue] at hrest
    obtain ⟨htold, hnone⟩ := (hheard.collects c hc).hotplug_told m connected
    have hm : e.wall.connectedCount = m := connectedCount_of_demand? mark hc hdem
    have hvsyncs : Task.vsyncs rest = [] := by rw [Task.vsyncs_eq, hnil, List.filterMap_nil]
    refine ⟨fun hx => ?_, fun hx => ?_⟩
    · obtain ⟨k, ds, hk, hds⟩ := htold (hm ▸ hx)
      have htail := (c.decides_hotplug m connected).tail_eq
      rw [hds] at hrest htail
      rw [List.map_cons, List.cons_append] at hrest
      refine ⟨k, ds.map .deliver ++ rest, hk, hrest, ?_⟩
      rw [Task.vsyncs_append, hvsyncs, List.append_nil, Task.vsyncs_eq, Task.deliveries_map_deliver]
      exact htail
    · rw [hrest, Task.vsyncs_append, hvsyncs, List.append_nil, Task.vsyncs_eq,
        Task.deliveries_map_deliver]
      exact hnone (hm ▸ hx)

/-- Three outputs complete a cycle and begin another one, and two of them go. -/
def halfway : Noted (List (Delivery × Option Controller)) :=
  [.listen .vsync ⟨1⟩ "host" [] 0, .control true, .vsyncUpdate 10, .vsyncUpdate 12,
    .vsyncUpdate 15, .vsyncUpdate 20, .vsyncUpdate 22, .change 0 { connected := some false } none,
    .change 1 { connected := some false } none].foldl (Noted.perform Wall.hearing)
      ⟨(Wall.create [{}, {}, {}] {}).resting, []⟩

/-- The hotplug that follows cuts the second cycle short. -/
theorem pending_has_listener_halfway :
    (Wall.create [{}, {}, {}] {}).Brings Wall.hearing [] halfway ∧
      halfway.notes.map Prod.fst = [⟨0, ⟨1⟩, .vsync 12⟩] ∧
      ∃ k rest, (halfway.run.wall.exec 0 (.perform (.hotplugUpdate false))).tasks =
        .deliver ⟨k, ⟨1⟩, .vsync 21⟩ :: rest := by
  have hbrings : (Wall.create [{}, {}, {}] {}).Brings Wall.hearing [] halfway := by
    refine ((((((((Wall.Brings.start.perform rfl _).perform ?_ _).perform ?_ _).perform ?_
      _).perform ?_ _).perform ?_ _).perform ?_ _).perform ?_ _).perform ?_ _
    all_goals decide +kernel
  have hnotes : halfway.notes.map Prod.fst = [⟨0, ⟨1⟩, .vsync 12⟩] := by decide +kernel
  have hcycle : halfway.run.wall.controller.map (fun c => (c.cycle, c.display)) =
      some (⟨1, 3, 42, true⟩, ⟨1⟩) := by decide +kernel
  have hcount : (halfway.run.wall.exec 0 (.perform (.hotplugUpdate false))).wall.connectedCount =
      1 := by decide +kernel
  have hdem : halfway.run.wall.demand? (.perform (.hotplugUpdate false)) =
      some (.hotplug halfway.run.wall.connectedCount false) := by
    rw [Wall.demand?, if_pos (by decide +kernel)]
  obtain ⟨c, hc, heq⟩ := Option.map_eq_some_iff.1 hcycle
  rw [Prod.mk.injEq] at heq
  obtain ⟨-, -, -, hplug⟩ := hbrings.pending_has_listener
  obtain ⟨hcut, -⟩ := hplug _ c _ _ 0 hc hdem
  rw [hcount, heq.1, heq.2] at hcut
  obtain ⟨k, rest, -, htasks, -⟩ := hcut (by decide)
  exact ⟨hbrings, hnotes, k, rest, htasks⟩

end VideoWall
