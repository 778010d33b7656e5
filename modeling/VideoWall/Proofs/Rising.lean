import Mathlib.Data.List.ReduceOption
import VideoWall.Proofs.Chronicle
import VideoWall.Proofs.Mean
import VideoWall.Proofs.Tuning

/-! Vsyncs rise as the timestamps do.

    The cycles that are told of are segments of the stream of timestamps, one behind the other,
    whatever ends them and whatever is dropped between them: `Ledger.flatten_averaged_sublist`. So
    when the timestamps do not decrease, neither do the means of these segments, and each lies
    between the ends of its own. `Sampling.Tells` is the invariant that ties a run to its segments:
    what was told, and what is about to be, is what the cycle yielded. -/

namespace VideoWall

namespace Vsync

/-! ### Segments and their means -/

/-- The mean of a segment, between its first and its last sample. -/
structure MeanWithin (m : Int) (segment : List Int) : Prop where
  mean_eq : m = segment.sum.tdiv segment.length
  first_le : ∃ first, segment.head? = some first ∧ first ≤ m
  le_last : ∃ last, segment.getLast? = some last ∧ m ≤ last

/-- The first of some samples that do not decrease is the least. -/
theorem head_le_of_mem {ts : List Int} (h : ts.Pairwise (· ≤ ·)) {t : Int} (ht : t ∈ ts) :
    ∃ first, ts.head? = some first ∧ first ≤ t := by
  rcases ts with _ | ⟨first, rest⟩
  · cases ht
  · refine ⟨first, rfl, ?_⟩
    rcases List.mem_cons.1 ht with rfl | ht
    · exact le_refl t
    · exact (List.pairwise_cons.1 h).1 t ht

/-- The last of them is the greatest. -/
theorem le_getLast_of_mem {ts : List Int} (h : ts.Pairwise (· ≤ ·)) {t : Int} (ht : t ∈ ts) :
    ∃ last, ts.getLast? = some last ∧ t ≤ last := by
  rcases List.eq_nil_or_concat ts with rfl | ⟨rest, last, rfl⟩
  · cases ht
  · rw [List.concat_eq_append] at h ht ⊢
    refine ⟨last, List.getLast?_concat, ?_⟩
    rcases List.mem_append.1 ht with ht | ht
    · exact (List.pairwise_append.1 h).2.2 t ht last List.mem_cons_self
    · exact le_of_eq (List.mem_singleton.1 ht)

/-- As long as a sum stays in range, the mean lies between the ends of its segment. -/
theorem meanWithin_of_isMean {m : Int} {segment : List Int} (hm : Ledger.IsMean (some m) segment)
    (hnonneg : ∀ t ∈ segment, 0 ≤ t) (hsum : segment.sum ≤ Limits.maxTime)
    (hsorted : segment.Pairwise (· ≤ ·)) : MeanWithin m segment := by
  obtain ⟨hne, hmean⟩ := hm m rfl
  rw [saturatingSum_of_nonneg hnonneg, min_eq_left hsum] at hmean
  obtain ⟨⟨t, ht, htm⟩, u, hu, hmu⟩ := Average.tdiv_between hne
  rw [← hmean] at htm hmu
  obtain ⟨first, hfirst, hle⟩ := head_le_of_mem hsorted ht
  obtain ⟨last, hlast, hge⟩ := le_getLast_of_mem hsorted hu
  exact ⟨hmean, ⟨first, hfirst, hle.trans htm⟩, last, hlast, hmu.trans hge⟩

/-- Means of segments that follow each other do not decrease. -/
theorem pairwise_of_meanWithin {ms : List Int} {segments : List (List Int)}
    (h : List.Forall₂ MeanWithin ms segments) (hsorted : segments.flatten.Pairwise (· ≤ ·)) :
    ms.Pairwise (· ≤ ·) := by
  induction h with
  | nil => exact .nil
  | @cons m segment ms segments hm hms ih =>
    rw [List.flatten_cons, List.pairwise_append] at hsorted
    obtain ⟨-, hrest, hcross⟩ := hsorted
    refine List.pairwise_cons.2 ⟨fun m' hm' => ?_, ih hrest⟩
    obtain ⟨i, hi, rfl⟩ := List.getElem_of_mem hm'
    have hlen : i < segments.length := hms.length_eq ▸ hi
    obtain ⟨last, hlast, hle⟩ := hm.le_last
    obtain ⟨first, hfirst, hge⟩ := (List.forall₂_iff_get.1 hms).2 i hi hlen |>.first_le
    have hmem : first ∈ segments.flatten :=
      List.mem_flatten.2 ⟨_, List.getElem_mem hlen, List.mem_of_mem_head? hfirst⟩
    exact hle.trans ((hcross last (List.mem_of_getLast? hlast) first hmem).trans hge)

namespace Ledger

/-- The segments that were averaged over a run: the samples that left with an act that returned
    something. -/
def averaged : Ledger → List Act → List (List Int)
  | _, [] => []
  | l, a :: rest =>
    (if (l.act a).2.isSome then [l.batch a] else []) ++ averaged (l.act a).1 rest

/-- The segments that were averaged follow each other in the stream of samples. -/
theorem flatten_averaged_sublist (l : Ledger) (acts : List Act) :
    (l.averaged acts).flatten.Sublist (l.samples ++ l.takenOver acts) := by
  induction acts generalizing l with
  | nil => exact List.nil_sublist _
  | cons a rest ih =>
    rw [averaged, takenOver, List.flatten_append, ← List.append_assoc, samples_append_taken,
      List.append_assoc]
    refine List.Sublist.append ?_ (ih _)
    split
    · rw [List.flatten_singleton]
    · exact List.nil_sublist _

/-- What was returned over a run are the means of the segments. -/
theorem isMean_averaged (l : Ledger) (acts : List Act) :
    List.Forall₂ (fun m segment => IsMean (some m) segment)
      (runWith Ledger.act l acts).2.reduceOption (l.averaged acts) := by
  induction acts generalizing l with
  | nil => exact .nil
  | cons a rest ih =>
    have hm := isMean_act l a
    rw [runWith, averaged]
    cases hr : (l.act a).2 with
    | none => simpa [List.reduceOption_cons_of_none] using ih _
    | some m =>
      rw [hr] at hm
      simpa [List.reduceOption_cons_of_some] using ⟨hm, ih _⟩

theorem takenOver_append (l : Ledger) (xs ys : List Act) :
    l.takenOver (xs ++ ys) = l.takenOver xs ++ takenOver (runWith Ledger.act l xs).1 ys := by
  induction xs generalizing l with
  | nil => rfl
  | cons x xs ih => rw [List.cons_append, takenOver, takenOver, ih, List.append_assoc]; rfl

end Ledger

end Vsync

open Vsync (Act Cycle Ledger runWith)

/-! ### Timestamps and what they do -/

/-- The timestamps that a controller was given, and how its cycle was acted upon. -/
structure Sampling where
  times : List Int := []
  acts : List Act := []

/-- A new controller is told how many outputs are connected. -/
def Sampling.start (outputs : List Output) : Sampling where
  acts := [.retarget (outputs.countP (·.connected)) false]

namespace Wall

/-- What a task adds, as long as there is a controller. -/
def sampling (w : Wall) (t : Task) (s : Sampling) : Sampling where
  times := s.times ++ (w.controller.bind fun _ => w.time? t).toList
  acts := s.acts ++ (w.act? t).toList

/-- A step that acts on the cycle as `a` says, whoever listens afterwards. Like `Effect.Sounds`, but
    the holder may tune the wall. -/
structure Rings (w : Wall) (now : Option Int) (a : Option Act) (e : Effect) : Prop where
  cycle_eq : ∀ c', e.wall.controller = some c' → ∃ c, w.controller = some c ∧
    c'.cycle = a.elim c.cycle fun a => (c.cycle.act a).1
  listener : ∀ c' k, e.wall.controller = some c' → c'.vsyncListener = some k →
    k < e.wall.listeners.length ∨ ∃ c, w.controller = some c ∧ c.vsyncListener = some k
  listeners_le : w.listeners.length ≤ e.wall.listeners.length
  events_eq : Event.vsyncs e.events = now.toList
  tasks_eq : Task.vsyncs e.tasks = (w.controller.bind (·.yields? a)).toList
  tail_eq : Task.vsyncs e.tasks.tail = []
  heard : ∀ d, .deliver d ∈ e.tasks → d.notice.vsync?.isSome = true →
    ∃ c, w.controller = some c ∧ c.vsyncListener = some d.listener

variable {w : Wall} {now : Option Int} {a : Option Act} {a' : Act} {e : Effect}

theorem rings_of_sounds (h : e.Sounds w now a) : w.Rings now a e where
  cycle_eq := fun c' hc' =>
    let ⟨c, hc, ht⟩ := h.wall.controller c' hc'
    ⟨c, hc, ht.cycle_eq⟩
  listener := by
    intro c' k hc' hk
    obtain ⟨c, hc, ht⟩ := h.wall.controller c' hc'
    exact .inr ⟨c, hc, ht.listener_eq ▸ hk⟩
  listeners_le := h.wall.listeners_eq.ge
  events_eq := h.events_eq
  tasks_eq := h.tasks_eq
  tail_eq := h.tail_eq
  heard := h.heard

/-- A step that leaves nothing to do, tells nobody, and makes the cycle yield nothing. -/
theorem rings_of_nil {c c' : Controller} (hc : w.controller = some c)
    (hc' : e.wall.controller = some c') (ht : e.tasks = []) (he : ∀ x ∈ e.events, x.vsync? = none)
    (hy : c.yields? a = none) (hcycle : c'.cycle = a.elim c.cycle fun a => (c.cycle.act a).1)
    (hl : w.listeners.length ≤ e.wall.listeners.length)
    (hk : ∀ k, c'.vsyncListener = some k →
      k < e.wall.listeners.length ∨ c.vsyncListener = some k) : w.Rings none a e where
  cycle_eq := fun d hd => ⟨c, hc, Option.some.inj (hc'.symm.trans hd) ▸ hcycle⟩
  listener := by
    intro d k hd hlk
    obtain rfl := Option.some.inj (hc'.symm.trans hd)
    exact (hk k hlk).imp_right fun h => ⟨c, hc, h⟩
  listeners_le := hl
  events_eq := Event.vsyncs_eq_nil he
  tasks_eq := by
    rw [ht, hc, Option.bind_some, hy]
    rfl
  tail_eq := by
    rw [ht]
    rfl
  heard := by
    rw [ht]
    rintro d ⟨⟩

theorem rings_setPowerMode {c : Controller} (hc : w.controller = some c) (mode : PowerMode) :
    w.Rings none none (w.setPowerMode c mode) :=
  rings_of_nil hc rfl rfl (fun _ hx => vsync?_of_mem_callAll hx) rfl rfl (le_refl _)
    fun _ => .inr

theorem rings_control {c : Controller} (hc : w.controller = some c) (enabled : Bool) :
    w.Rings none (if c.vsyncEnabled != enabled then some .restart else none)
      (w.control c enabled) := by
  by_cases h : c.vsyncEnabled = enabled
  · rw [control, if_pos h, h, bne_self_eq_false]
    exact rings_of_sounds (w.mute_self .ok)
  · have hctl : c.control enabled =
        { c with vsyncEnabled := enabled, cycle := c.cycle.restart } := if_neg h
    rw [control, if_neg h, if_pos (bne_iff_ne.2 h), hctl]
    exact rings_of_nil hc rfl rfl (fun _ hx => vsync?_of_mem_callAll hx) rfl rfl (le_refl _)
      fun _ => .inr

/-- A new listener takes the place of the one before it. -/
theorem rings_listen {c : Controller} (hc : w.controller = some c) (channel : Channel)
    (display : DisplayId) (l : Listener) :
    w.Rings none none (w.listen c channel display l) := by
  have hlen : (w.listen c channel display l).wall.listeners.length = w.listeners.length + 1 := by
    simp [listen, addListener, setOutputs]
  refine rings_of_nil hc rfl rfl (fun x hx => ?_) rfl ?_ (hlen ▸ Nat.le_succ _) fun k hk => ?_
  · obtain ⟨i, hi, rfl⟩ := List.mem_mapIdx.1 hx
    rfl
  · cases channel <;> rfl
  · cases channel with
    | vsync =>
      cases hk
      exact .inl (hlen ▸ Nat.lt_succ_self _)
    | refresh => exact .inr hk
    | hotplug => exact .inr hk

theorem rings_asHolder {f : Controller → Effect}
    (h : ∀ c, w.held = true → w.controller = some c → w.Rings none a (f c))
    (hn : w.held = false ∨ w.controller = none → a = none) : w.Rings none a (w.asHolder f) := by
  rcases w.asHolder_cases f with ⟨c, hh, hc, he⟩ | ⟨hgone, he⟩
  · exact he ▸ h c hh hc
  · rw [he, hn hgone]
    exact rings_of_sounds (w.mute_self .dropped)

/-- An operation by which the holder tunes the wall. -/
theorem rings_tuning (mark : Nat) {op : Op} (h : op.isTuning = true) :
    w.Rings none (w.act? (.perform op)) (w.begin mark op) := by
  cases op with
  | setPowerMode mode =>
    rw [show w.act? (.perform (.setPowerMode mode)) = none from act?_eq_none fun c => ite_self none]
    exact rings_asHolder (fun c _ hc => rings_setPowerMode hc mode) fun _ => rfl
  | control enabled =>
    refine rings_asHolder (fun c hh hc => ?_) ?_
    · have ha : w.act? (.perform (.control enabled)) =
          if c.vsyncEnabled != enabled then some .restart else none := by
        simp [act?, hc, actOn?, hh]
      rw [ha]
      exact rings_control hc enabled
    · rintro (hh | hc)
      · exact act?_eq_none fun c => by simp [actOn?, hh]
      · rw [act?, hc]
        rfl
  | listen channel display tag script limit =>
    rw [show w.act? (.perform (.listen channel display tag script limit)) = none from
      act?_eq_none fun c => ite_self none]
    exact rings_asHolder (fun c _ hc => rings_listen hc channel display _) fun _ => rfl
  | _ => cases h

/-- Whatever the step is. -/
theorem rings_exec (mark : Nat) {t : Task}
    (hl : ∀ d, t = .deliver d → d.notice.vsync?.isSome = true → d.listener < w.listeners.length) :
    w.Rings t.vsync? (w.act? t) (w.exec mark t) := by
  by_cases ht : ∃ op, t = .perform op ∧ op.isTuning = true
  · obtain ⟨op, rfl, hop⟩ := ht
    have hr := rings_tuning (w := w) mark hop
    refine ⟨hr.cycle_eq, hr.listener, hr.listeners_le, hr.events_eq, ?_, ?_, ?_⟩
    · exact (Task.vsyncs_append_report ..).trans hr.tasks_eq
    · exact (Task.vsyncs_tail_append_report ..).trans hr.tail_eq
    · intro d hd
      rcases List.mem_append.1 hd with hd | hd
      · exact hr.heard d hd
      · cases List.mem_singleton.1 hd
  · refine rings_of_sounds (sounds_exec mark (fun op hop => ?_) hl)
    exact Bool.eq_false_iff.2 fun h => ht ⟨op, hop, h⟩

/-! ### Over a run -/

/-- Only a sample carries a timestamp. -/
theorem taken_sublist_time (l : Ledger) {t : Task} (h : w.act? t = some a') :
    (l.taken a').Sublist (w.controller.bind fun _ => w.time? t).toList := by
  obtain ⟨c, hc, hact⟩ := Option.bind_eq_some_iff.1 h
  cases a' with
  | retarget outputs flush => exact List.nil_sublist _
  | restart => exact List.nil_sublist _
  | observe time =>
    have htime : w.time? t = some time := by
      unfold actOn? at hact
      split at hact
      · split at hact <;> cases hact
      · split at hact <;> cases hact
      · dsimp only at hact
        split at hact <;> cases hact
      · split at hact
        · obtain ⟨time', htime, heq⟩ := Option.map_eq_some_iff.1 hact
          cases heq
          exact htime
        · cases hact
    rw [hc, Option.bind_some, htime, Ledger.taken]
    split
    · exact List.nil_sublist _
    · exact List.Sublist.refl _

end Wall

/-- What a run has told, and is about to tell, is what the cycle has yielded, of samples that are
    among the timestamps. Whoever listens for vsync is there, and at most the first task tells them
    something. -/
structure Sampling.Tells (s : Sampling) (w : Wall) (ts : List Task) (es : List Event) : Prop where
  cycle_eq : ∀ c, w.controller = some c → c.cycle = (runWith Cycle.act {} s.acts).1
  listener_lt : ∀ c k, w.controller = some c → c.vsyncListener = some k → k < w.listeners.length
  heard : ∀ d, .deliver d ∈ ts → d.notice.vsync?.isSome = true → d.listener < w.listeners.length
  told_eq : Event.vsyncs es ++ Task.vsyncs ts = (runWith Cycle.act {} s.acts).2.reduceOption
  tail_eq : Task.vsyncs ts.tail = []
  taken : (Ledger.takenOver {} s.acts).Sublist s.times

namespace Sampling.Tells

variable {s : Sampling} {w : Wall} {t : Task} {ts : List Task} {es : List Event}

/-- Whatever the tasks are, as long as none of them tells anybody about vsync. -/
theorem of_silent (h : s.Tells w [] es) (hts : ∀ t ∈ ts, t.vsync? = none) : s.Tells w ts es where
  cycle_eq := h.cycle_eq
  listener_lt := h.listener_lt
  heard := fun d hd hs => by
    rw [show d.notice.vsync? = none from hts _ hd] at hs
    cases hs
  told_eq := by
    rw [Task.vsyncs_eq_nil hts]
    exact h.told_eq
  tail_eq := Task.vsyncs_eq_nil fun t ht => hts t (List.mem_of_mem_tail ht)
  taken := h.taken

/-- What the cycle yields with a task comes after what it has yielded before. -/
theorem yields_eq (h : s.Tells w ts es) (t : Task) :
    (w.controller.bind (·.yields? (w.act? t))).toList =
      (runWith Cycle.act (runWith Cycle.act {} s.acts).1 (w.act? t).toList).2.reduceOption := by
  cases ha : w.act? t with
  | none =>
    have hnone : (w.controller.bind fun c : Controller => c.yields? none) = none := by
      cases w.controller <;> rfl
    rw [hnone]
    rfl
  | some a =>
    obtain ⟨c, hc, -⟩ := Option.bind_eq_some_iff.1 ha
    rw [hc, Option.bind_some, Option.toList_some, runWith, runWith, ← h.cycle_eq c hc]
    show (c.cycle.act a).2.toList = _
    cases (c.cycle.act a).2 <;> rfl

/-- A task is done. -/
theorem exec (h : s.Tells w (t :: ts) es) :
    (w.sampling t s).Tells (w.exec es.length t).wall ((w.exec es.length t).tasks ++ ts)
      (es ++ (w.exec es.length t).events) := by
  have hr := Wall.rings_exec (w := w) es.length (t := t) fun d hd =>
    h.heard d (hd ▸ List.mem_cons_self)
  have hts : Task.vsyncs ts = [] := h.tail_eq
  have hhead : Task.vsyncs (t :: ts) = t.vsync?.toList := by
    have hcons : Task.vsyncs (t :: ts) = Task.vsyncs [t] ++ Task.vsyncs ts :=
      Task.vsyncs_append [t] ts
    rw [hcons, hts, List.append_nil, Task.vsyncs, List.filterMap_cons]
    cases t.vsync? <;> rfl
  constructor
  · intro c' hc'
    obtain ⟨c, hc, heq⟩ := hr.cycle_eq c' hc'
    rw [heq, Wall.sampling, Vsync.runWith_append, ← h.cycle_eq c hc]
    cases w.act? t <;> rfl
  · intro c' k hc' hk
    rcases hr.listener c' k hc' hk with hlt | ⟨c, hc, hk⟩
    · exact hlt
    · exact (h.listener_lt c k hc hk).trans_le hr.listeners_le
  · intro d hd hs
    refine lt_of_lt_of_le ?_ hr.listeners_le
    rcases List.mem_append.1 hd with hd | hd
    · obtain ⟨c, hc, hk⟩ := hr.heard d hd hs
      exact h.listener_lt c _ hc hk
    · exact h.heard d (List.mem_cons_of_mem _ hd) hs
  · rw [Wall.sampling, Vsync.runWith_append, List.reduceOption_append, ← h.told_eq, hhead,
      ← h.yields_eq t, Event.vsyncs_append, Task.vsyncs_append, hts, hr.events_eq, hr.tasks_eq]
    simp
  · cases hets : (w.exec es.length t).tasks with
    | nil =>
      rw [List.nil_append]
      exact List.filterMap_eq_nil_iff.2 fun u hu =>
        List.filterMap_eq_nil_iff.1 hts u (List.mem_of_mem_tail hu)
    | cons u us =>
      have htail := hr.tail_eq
      rw [hets, List.tail_cons] at htail
      rw [List.cons_append, List.tail_cons, Task.vsyncs_append, htail, hts]
      rfl
  · rw [Wall.sampling, Ledger.takenOver_append]
    refine h.taken.append ?_
    cases ha : w.act? t with
    | none => exact List.nil_sublist _
    | some a =>
      rw [Option.toList_some, Ledger.takenOver, Ledger.takenOver, List.append_nil]
      exact Wall.taken_sublist_time _ ha

end Sampling.Tells

/-- Over whatever a new wall comes to, what was told and is about to be is what the cycle of the
    controller yielded. -/
theorem Wall.Brings.tells {outputs : List Output} {policy : Policy} {n : Noted Sampling}
    (h : (Wall.create outputs policy).Brings sampling (.start outputs) n) :
    n.notes.Tells n.run.wall n.run.tasks n.run.events := by
  refine h.invariant (P := fun w ts es s => s.Tells w ts es) ?_ ?_ ?_ ?_ ?_ ?_
  · refine ⟨?_, ?_, fun d hd => (List.not_mem_nil hd).elim, rfl, rfl, List.Sublist.refl _⟩
    · rintro c ⟨⟩
      rfl
    · rintro c k ⟨⟩ ⟨⟩
  · exact fun w op es s hs => hs.of_silent (List.forall_mem_singleton.2 rfl)
  · intro w ts op r es s hs
    refine ⟨hs.cycle_eq, hs.listener_lt, fun d hd => hs.heard d (List.mem_append_left _ hd), ?_, ?_,
      hs.taken⟩
    · rw [← hs.told_eq, Task.vsyncs_append_report]
    · rw [← hs.tail_eq, Task.vsyncs_tail_append_report]
  · intro w tiles es s hs
    exact hs.of_silent (List.forall_mem_map.2 fun _ _ => rfl)
  · intro w mark ts es s hs
    have hquiet : w.sampling (.group mark) s = s := by
      have ha : w.act? (.group mark) = none := act?_eq_none fun c => ite_self none
      have ht : (w.controller.bind fun _ => w.time? (.group mark)) = none := by
        cases w.controller <;> rfl
      rw [sampling, ha, ht]
      simp
    have hts : Task.vsyncs ts = [] := hs.tail_eq
    rw [hquiet]
    refine ⟨hs.cycle_eq, hs.listener_lt, fun d hd => hs.heard d (List.mem_cons_of_mem _ hd), ?_, ?_,
      hs.taken⟩
    · rw [← hs.told_eq, Event.vsyncs_append, Event.vsyncs_grouped, ← Event.vsyncs_append,
        List.take_append_drop]
      rfl
    · exact List.filterMap_eq_nil_iff.2 fun u hu =>
        List.filterMap_eq_nil_iff.1 hts u (List.mem_of_mem_tail hu)
  · exact fun w t ts es s _ hs => hs.exec

/-- Whatever a new wall comes to, by whatever operations of the host and of scripts: as long as the
    timestamps that the controller is given are not negative and do not decrease, and those of one
    vsync add up without leaving their range, the vsyncs that were told do not decrease. Together
    with what is about to be told, which is nothing once the wall is at rest, they are the means of
    segments of the timestamps that follow each other, and each lies between the first and the last
    timestamp of its own. -/
theorem Wall.Brings.vsyncs_rise {outputs : List Output} {policy : Policy} {n : Noted Sampling}
    (h : (Wall.create outputs policy).Brings sampling (.start outputs) n)
    (hnonneg : ∀ t ∈ n.notes.times, 0 ≤ t) (hsorted : n.notes.times.Pairwise (· ≤ ·))
    (hsum : ∀ segment ∈ Ledger.averaged {} n.notes.acts, segment.sum ≤ Limits.maxTime) :
    let segments := Ledger.averaged {} n.notes.acts
    (Event.vsyncs n.run.events).Pairwise (· ≤ ·) ∧
    List.Forall₂ Vsync.MeanWithin (Event.vsyncs n.run.events ++ Task.vsyncs n.run.tasks) segments ∧
    segments.flatten.Sublist n.notes.times ∧
    (n.run.isAtRest = true → Task.vsyncs n.run.tasks = []) := by
  intro segments
  have htells := h.tells
  have hsub : segments.flatten.Sublist n.notes.times :=
    (Ledger.flatten_averaged_sublist {} n.notes.acts).trans htells.taken
  have hreturned : (runWith Cycle.act {} n.notes.acts).2 = (runWith Ledger.act {} n.notes.acts).2 :=
    congrArg Prod.snd (Ledger.runWith_cycle (l := {}) (.inl rfl) n.notes.acts)
  have hmeans : List.Forall₂ Vsync.MeanWithin
      (Event.vsyncs n.run.events ++ Task.vsyncs n.run.tasks) segments := by
    rw [htells.told_eq, hreturned]
    have hm := Ledger.isMean_averaged {} n.notes.acts
    refine List.forall₂_iff_get.2 ⟨hm.length_eq, fun i hi hj => ?_⟩
    have hmem : segments.get ⟨i, hj⟩ ∈ segments := List.get_mem ..
    have hseg : (segments.get ⟨i, hj⟩).Sublist n.notes.times :=
      (List.sublist_flatten_of_mem hmem).trans hsub
    exact Vsync.meanWithin_of_isMean ((List.forall₂_iff_get.1 hm).2 i hi hj)
      (fun t ht => hnonneg t (hseg.mem ht)) (hsum _ hmem) (hsorted.sublist hseg)
  refine ⟨?_, hmeans, hsub, ?_⟩
  · exact (List.pairwise_append.1 (Vsync.pairwise_of_meanWithin hmeans (hsorted.sublist hsub))).1
  · intro hr
    rw [Run.isAtRest, Bool.and_eq_true, List.isEmpty_iff] at hr
    rw [hr.1]
    rfl

/-- Three outputs complete a cycle; the next one is cut short when two of them are gone, a timestamp
    is lost while vsync is disabled, and the output that is left has a cycle of its own. -/
def cadence : Noted Sampling :=
  [.listen .vsync ⟨1⟩ "host" [] 0, .control true, .vsyncUpdate 10, .vsyncUpdate 12,
    .vsyncUpdate 15, .vsyncUpdate 20, .vsyncUpdate 22, .change 0 { connected := some false } none,
    .change 1 { connected := some false } none, .hotplugUpdate false, .control false,
    .vsyncUpdate 30, .control true, .vsyncUpdate 40].foldl (Noted.perform Wall.sampling)
      ⟨(Wall.create [{}, {}, {}] {}).resting, .start [{}, {}, {}]⟩

theorem vsyncs_rise_cadence :
    (Wall.create [{}, {}, {}] {}).Brings Wall.sampling (.start [{}, {}, {}]) cadence ∧
      cadence.notes.times = [10, 12, 15, 20, 22, 30, 40] ∧
      Ledger.averaged {} cadence.notes.acts = [[10, 12, 15], [20, 22], [40]] ∧
      Event.vsyncs cadence.run.events = [12, 21, 40] ∧
      List.Forall₂ Vsync.MeanWithin [12, 21, 40] [[10, 12, 15], [20, 22], [40]] := by
  have hbrings : (Wall.create [{}, {}, {}] {}).Brings Wall.sampling (.start [{}, {}, {}])
      cadence := by
    refine (((((((((((((Wall.Brings.start.perform rfl _).perform ?_ _).perform ?_ _).perform ?_
      _).perform ?_ _).perform ?_ _).perform ?_ _).perform ?_ _).perform ?_ _).perform ?_
      _).perform ?_ _).perform ?_ _).perform ?_ _).perform ?_ _
    all_goals decide +kernel
  have htimes : cadence.notes.times = [10, 12, 15, 20, 22, 30, 40] := by decide +kernel
  have hsegments : Ledger.averaged {} cadence.notes.acts = [[10, 12, 15], [20, 22], [40]] := by
    decide +kernel
  have htold : Event.vsyncs cadence.run.events = [12, 21, 40] := by decide +kernel
  obtain ⟨-, hmeans, -, hrest⟩ := hbrings.vsyncs_rise (by rw [htimes]; decide)
    (by rw [htimes]; decide) (by rw [hsegments]; decide)
  refine ⟨hbrings, htimes, hsegments, htold, ?_⟩
  rwa [hrest (by decide +kernel), List.append_nil, htold, hsegments] at hmeans

end VideoWall
