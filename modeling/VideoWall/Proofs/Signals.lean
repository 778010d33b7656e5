import VideoWall.Proofs.Backlog
import VideoWall.Proofs.Custody

/-! Completion signals between frames.

    A job that is handled raises its worker's signal, and the frame waits for each of its workers
    after that, which takes the signal down again. So the tasks that are left take down whatever is
    raised by then or still to be raised (`Task.signals`), and when no frame is in progress, no
    signal is raised: `Reached.raised_eq_false`. A frame that begins then finds each worker with
    nothing to do and its signal down (`Worker.Ready`), so that nobody waits in it for a job of an
    earlier one. -/

namespace VideoWall

/-! ### Tasks and signals -/

namespace Task

/-- Whether a tile's signal is raised after a task and what it causes, if `b` says whether it was
    before. -/
def signal (i : Nat) (b : Bool) : Task → Bool
  | .work j | .finish j _ _ => b || j == i
  | .await j => b && j != i
  | _ => b

/-- Whether a tile's signal is raised after some tasks. -/
def signals (i : Nat) (b : Bool) (ts : List Task) : Bool := ts.foldl (signal i) b

variable {i : Nat} {a b : Bool} {t : Task} {ts us : List Task}

theorem signals_append : signals i b (ts ++ us) = signals i (signals i b ts) us :=
  List.foldl_append

theorem signal_mono (h : a = true → b = true) (t : Task) :
    signal i a t = true → signal i b t = true := by
  cases t with
  | work j | finish j _ _ =>
    simp only [signal, Bool.or_eq_true]
    exact Or.imp_left h
  | await j =>
    simp only [signal, Bool.and_eq_true]
    exact And.imp_left h
  | _ => exact h

theorem signals_mono (h : a = true → b = true) (ts : List Task) :
    signals i a ts = true → signals i b ts = true := by
  induction ts generalizing a b with
  | nil => exact h
  | cons t ts ih => exact ih (signal_mono h t)

theorem signals_of_not_ofFrame (h : ∀ t ∈ ts, t.ofFrame = false) : signals i b ts = b := by
  induction ts with
  | nil => rfl
  | cons t ts ih =>
    have ht : signal i b t = b := by
      have hf := h t List.mem_cons_self
      cases t <;> first | rfl | cases hf
    rw [signals, List.foldl_cons, ht]
    exact ih fun u hu => h u (List.mem_cons_of_mem _ hu)

/-- Whoever has a job handled raises a signal. -/
theorem signals_map_work (jobs : List (Nat × Job)) :
    signals i b (jobs.map fun j => .work j.1) = (b || jobs.any (·.1 == i)) := by
  induction jobs generalizing b with
  | nil => exact (Bool.or_false b).symm
  | cons j js ih => rw [List.map_cons, List.any_cons, ← Bool.or_assoc]; exact ih

/-- Whoever is waited for has its signal taken down. -/
theorem signals_map_await (jobs : List (Nat × Job)) :
    signals i b (jobs.map fun j => .await j.1) = (b && !jobs.any (·.1 == i)) := by
  induction jobs generalizing b with
  | nil => exact (Bool.and_true b).symm
  | cons j js ih =>
    rw [List.map_cons, List.any_cons, Bool.not_or, ← Bool.and_assoc]
    exact ih

/-- A schedule waits for every worker that it gives a job. -/
theorem signals_schedule (p : Pipeline) (jobs : List (Nat × Job)) :
    signals i b (Wall.schedule p jobs) = true → b = true := by
  cases p with
  | sequential =>
    induction jobs generalizing b with
    | nil => exact id
    | cons j js ih =>
      have hone : signals i b [.dispatch j.1 j.2, .work j.1, .await j.1] = true → b = true := by
        cases b <;> simp [signals, signal]
      rw [Wall.schedule, List.flatMap_cons, signals_append]
      exact fun h => hone (ih h)
  | barrier =>
    have hdispatch : signals i b (jobs.map fun j => .dispatch j.1 j.2) = b := by
      induction jobs with
      | nil => rfl
      | cons j js ih => exact ih
    rw [Wall.schedule, signals_append, signals_append, hdispatch, signals_map_work,
      signals_map_await]
    cases b <;> simp

/-- Wherever something is left to do about a job, the frame is still to end. -/
def Closed : List Task → Prop
  | [] => True
  | t :: ts => ((∃ i, t.tile? = some i) → .endFrame ∈ ts) ∧ Closed ts

theorem tile?_of_not_ofFrame (h : t.ofFrame = false) (i : Nat) : t.tile? ≠ some i := by
  cases t <;> simp_all [ofFrame, tile?]

/-- More to do about jobs, before the frame ends. -/
theorem closed_append (h : ∀ t ∈ ts, (∃ i, t.tile? = some i) → .endFrame ∈ us) (hu : Closed us) :
    Closed (ts ++ us) := by
  induction ts with
  | nil => exact hu
  | cons t ts ih =>
    exact ⟨fun hi => List.mem_append_right ts (h t List.mem_cons_self hi),
      ih fun u hu => h u (List.mem_cons_of_mem _ hu)⟩

theorem closed_append_of_not_ofFrame (h : ∀ t ∈ ts, t.ofFrame = false) (hu : Closed us) :
    Closed (ts ++ us) :=
  closed_append (fun t ht ⟨i, hi⟩ => absurd hi (tile?_of_not_ofFrame (h t ht) i)) hu

/-- Without an end left, no signal goes up or down any more. -/
theorem signals_of_closed (h : Closed ts) (he : .endFrame ∉ ts) : signals i b ts = b := by
  induction ts with
  | nil => rfl
  | cons t ts ih =>
    rw [List.mem_cons, not_or] at he
    have ht : signal i b t = b := by
      cases t with
      | work j | finish j _ _ | await j => exact absurd (h.1 ⟨j, rfl⟩) he.2
      | _ => rfl
    rw [signals, List.foldl_cons, ht]
    exact ih h.2 he.2

end Task

/-! ### Workers and signals -/

/-- Whether the signal of a tile's worker is raised. -/
def Tile.raised (t : Tile) : Bool := t.worker.any (·.signal.raised)

/-- The wait for a worker leaves its signal down. -/
theorem Worker.raised_wait (k : Worker) : k.wait.signal.raised = false := by
  rw [wait, Signal.wait?]
  split
  · rfl
  · next h => exact Bool.eq_false_iff.2 h

namespace Wall

variable {w v : Wall} {i : Nat} {t : Task} {ts us : List Task}

/-- Whether the signal of the worker at a tile is raised. -/
def raised (w : Wall) (i : Nat) : Bool := w.tiles[i]?.any Tile.raised

theorem raised_eq_staff (w : Wall) (i : Nat) :
    w.raised i = w.staff[i]?.any (Option.any (·.signal.raised)) := by
  rw [raised, staff, List.getElem?_map]
  cases w.tiles[i]? <;> rfl

theorem raised_of_keeps_or_ends (h : w.Keeps v ∨ w.Ends v) (hv : v.raised i = true) :
    w.raised i = true := by
  rcases h with hk | he
  · rwa [raised_eq_staff, hk.staff_eq, ← raised_eq_staff] at hv
  · rw [raised_eq_staff, he.staff_eq, List.getElem?_map] at hv
    cases hs : w.staff[i]? <;> rw [hs] at hv <;> cases hv

/-- A new worker's signal is down. -/
theorem raised_reconcile (c : Controller) (h : (w.reconcile c).raised i = true) :
    w.raised i = true := by
  cases hs : c.stale with
  | false => rwa [reconcile_of_not_stale hs] at h
  | true =>
    rw [raised, tiles_reconcile hs, List.getElem?_mapIdx] at h
    rw [raised]
    cases ht : w.tiles[i]? with
    | none =>
      rw [ht] at h
      cases h
    | some tile =>
      rw [ht] at h
      have hr : (tile.reconcile i).raised = true := h
      have hm := tile.matches_reconcile i
      generalize tile.reconcile i = tile' at hm hr
      cases hm with
      | kept | without => exact hr
      | started | retired => cases hr

/-- One tile changes. -/
theorem raised_setTile (f : Tile → Tile) (j : Nat) :
    (w.setTile j f).raised i =
      if j = i then w.tiles[i]?.any fun t => (f t).raised else w.raised i := by
  rw [raised, raised, setTile, List.getElem?_modify]
  split <;> cases w.tiles[i]? <;> rfl

theorem raised_setTile_of_ne (f : Tile → Tile) {j : Nat} (h : j ≠ i) :
    (w.setTile j f).raised i = w.raised i := by
  rw [raised_setTile, if_neg h]

/-- A job that is handed out raises nothing. -/
theorem raised_dispatch (j : Nat) (job : Job) : (w.dispatch j job).wall.raised i = w.raised i := by
  rcases w.dispatch_cases j job with ⟨log, he, -⟩ | ⟨k, hk, -, he⟩ <;> rw [he]
  obtain ⟨tile, ht, hw⟩ := Option.bind_eq_some_iff.1 hk
  rw [raised_setTile]
  split
  · next hij =>
    subst hij
    rw [raised, ht, Option.any_some, Option.any_some, Tile.raised, Tile.raised, hw]
    rfl
  · rfl

/-- Whoever is waited for has its signal down, and no other signal changes. -/
theorem raised_await (j : Nat) :
    (w.setTile j fun t => { t with worker := t.worker.map Worker.wait }).raised i =
      (w.raised i && j != i) := by
  rw [raised_setTile]
  by_cases hij : j = i
  · subst hij
    rw [if_pos rfl, bne_self_eq_false, Bool.and_false]
    cases w.tiles[j]? with
    | none => rfl
    | some t =>
      rw [Option.any_some, Tile.raised]
      cases t.worker with
      | none => rfl
      | some k => exact k.raised_wait
  · rw [if_neg hij, bne_iff_ne.2 hij, Bool.and_true]

/-- A worker that takes up a job changes no signal; others are left alone when it ends it. -/
theorem signals_work {j : Nat} (hij : j ≠ i)
    (h : Task.signals i ((w.work j).wall.raised i) (w.work j).tasks = true) :
    w.raised i = true := by
  rcases w.work_cases j with ⟨hw, -⟩ | ⟨_, _, _, _, -, -, -, script, _, _, hw, -⟩
  · rw [hw] at h
    exact h
  · have hscript : ∀ t ∈ script.map Task.perform, t.ofFrame = false :=
      List.forall_mem_map.2 fun _ _ => rfl
    rw [hw, Task.signals_append, Task.signals_of_not_ofFrame hscript, Task.signals,
      List.foldl_cons, List.foldl_nil, Task.signal, raised_setTile_of_ne _ hij, Bool.or_eq_true,
      beq_iff_eq] at h
    exact h.resolve_right hij

/-- A step without workers or jobs. -/
theorem raised_of_plain {e : Effect} (hp : e.Plain w)
    (h : Task.signals i (e.wall.raised i) e.tasks = true) : w.raised i = true := by
  rw [Task.signals_of_not_ofFrame hp.tasks] at h
  exact raised_of_keeps_or_ends hp.wall h

/-- A step raises and takes down signals as its task and the tasks that it leaves say. -/
theorem signals_exec (mark : Nat)
    (h : Task.signals i ((w.exec mark t).wall.raised i) (w.exec mark t).tasks = true) :
    Task.signal i (w.raised i) t = true := by
  have hplain : t.ofFrame = false → (∀ op, t = .perform op → w.beginsFrame op = false) →
      w.raised i = true :=
    fun ht hb => raised_of_plain (plain_exec mark ht hb) h
  cases t with
  | perform op =>
    cases hb : w.beginsFrame op with
    | false =>
      refine hplain rfl ?_
      rintro _ ⟨⟩
      exact hb
    | true =>
      obtain ⟨layers, upload, c, rfl, hh, hc, hp⟩ := exists_of_beginsFrame hb
      rw [exec, begin_present hh hc hp, List.append_assoc, List.append_assoc,
        Task.signals_append] at h
      refine raised_reconcile c (Task.signals_schedule (i := i) w.policy.pipeline
        ((w.reconcile c).jobs layers upload) ?_)
      cases hpipe : w.policy.pipeline <;> rw [hpipe] at h <;> exact h
  | dispatch j job =>
    rw [exec, raised_dispatch] at h
    rcases w.dispatch_cases j job with ⟨log, he, -⟩ | ⟨k, -, -, he⟩ <;> rw [he] at h <;> exact h
  | work j =>
    rw [Task.signal, Bool.or_eq_true, beq_iff_eq]
    by_cases hij : j = i
    · exact .inr hij
    · exact .inl (signals_work hij h)
  | finish j upload submission =>
    rw [Task.signal, Bool.or_eq_true, beq_iff_eq]
    by_cases hij : j = i
    · exact .inr hij
    · exact .inl ((raised_setTile_of_ne (w := { w with
        uploads := w.uploads + submission.uploads upload }) _ hij).symm.trans h)
  | await j => exact (raised_await j).symm.trans h
  | endFrame =>
    exact raised_of_keeps_or_ends (w := { w with presenting := w.presenting - 1 })
      (keeps_or_ends_settle _) h
  | group => exact h
  | report | deliver | leave | arrive | poll | item | arm => exact hplain rfl (by simp)

/-- Whatever is raised, or will be, is taken down before the frame ends. -/
structure Settles (w : Wall) (ts : List Task) : Prop where
  signals_eq : ∀ i, Task.signals i (w.raised i) ts = false
  closed : Task.Closed ts

/-- A frame that begins is still to end. -/
theorem closed_begin (h : Task.Closed ts) (mark : Nat) (op : Op) :
    Task.Closed ((w.begin mark op).tasks ++ ts) := by
  cases hb : w.beginsFrame op with
  | true =>
    obtain ⟨layers, upload, c, rfl, hh, hc, hp⟩ := exists_of_beginsFrame hb
    rw [begin_present hh hc hp, List.append_assoc, List.singleton_append]
    refine Task.closed_append (fun _ _ _ => List.mem_cons_self) ⟨?_, h⟩
    rintro ⟨i, ⟨⟩⟩
  | false => exact Task.closed_append_of_not_ofFrame (plain_begin mark hb).tasks h

/-- Whatever the next task is. -/
theorem Settles.exec (h : w.Settles (t :: ts)) (mark : Nat) :
    (w.exec mark t).wall.Settles ((w.exec mark t).tasks ++ ts) where
  signals_eq := by
    intro i
    rw [Task.signals_append]
    exact Bool.eq_false_iff.2 fun hr =>
      Bool.eq_false_iff.1 (h.signals_eq i) (Task.signals_mono (signals_exec mark) ts hr)
  closed := by
    obtain ⟨hend, hts⟩ := h.closed
    have htile : ∀ i, t.tile? = some i → Task.Closed ((w.exec mark t).tasks ++ ts) :=
      fun i hi => Task.closed_append (fun _ _ _ => hend ⟨i, hi⟩) hts
    cases t with
    | dispatch i job | work i | finish i upload s | await i => exact htile i rfl
    | endFrame | group => exact hts
    | perform op =>
      have hreport : Task.Closed (.report op (w.begin mark op).reply :: ts) :=
        ⟨by rintro ⟨i, ⟨⟩⟩, hts⟩
      rw [Wall.exec, List.append_assoc]
      exact closed_begin hreport mark op
    | report | deliver | leave | arrive | poll | item | arm =>
      exact Task.closed_append_of_not_ofFrame (plain_exec mark rfl (by simp)).tasks hts

end Wall

/-- Whatever a wall comes to, the tasks that are left take all signals down. -/
theorem Reached.settles {t : Tracked} (h : Reached t) : t.run.wall.Settles t.run.tasks := by
  refine h.invariant (P := Wall.Settles) ?_ ?_ ?_ fun _ mark _ _ hs => hs.exec mark
  · intro outputs policy
    refine ⟨fun i => ?_, trivial⟩
    show (Wall.create outputs policy).raised i = false
    rw [Wall.raised, Wall.create, List.getElem?_map]
    cases outputs[i]? <;> rfl
  · intro w tiles hs
    have hpolls : ∀ t ∈ tiles.map Task.poll, t.ofFrame = false :=
      List.forall_mem_map.2 fun _ _ => rfl
    refine ⟨fun i => (Task.signals_of_not_ofFrame hpolls).trans (hs.signals_eq i), ?_⟩
    have hclosed := Task.closed_append_of_not_ofFrame hpolls hs.closed
    rwa [List.append_nil] at hclosed
  · intro w mark op hs
    -- A host's operation is one of a script but for its reply.
    have hperform : w.Settles [.perform op] := ⟨hs.signals_eq, ⟨by rintro ⟨i, ⟨⟩⟩, trivial⟩⟩
    have hclosed := Wall.closed_begin (w := w) hs.closed mark op
    refine ⟨fun i => ?_, by rwa [List.append_nil] at hclosed⟩
    have hexec := (hperform.exec mark).signals_eq i
    rw [List.append_nil, Wall.exec, Task.signals_append] at hexec
    exact hexec

/-- A worker that has nothing to do, takes jobs, and has its signal down. -/
structure Worker.Ready (k : Worker) : Prop where
  exited_eq : k.exited = false
  queue_eq : k.queue = []
  signal_eq : k.signal.raised = false

/-- Without a frame in progress, no signal is raised. -/
theorem Reached.raised_eq_false {t : Tracked} (h : Reached t) (hf : t.run.wall.presenting = 0)
    (i : Nat) : t.run.wall.raised i = false := by
  have hnot := h.orderly.endFrame_not_mem hf
  exact (Task.signals_of_closed h.settles.closed hnot).symm.trans (h.settles.signals_eq i)

/-- A frame that begins, with no other in progress, finds all workers ready. -/
theorem Reached.ready_reconcile {t : Tracked} (h : Reached t) (hf : t.run.wall.presenting = 0)
    (c : Controller) {i : Nat} {k : Worker}
    (hk : (t.run.wall.reconcile c).staff[i]? = some (some k)) : k.Ready := by
  obtain ⟨hx, hq⟩ := h.orderly.idle_reconcile hf c hk
  refine ⟨hx, hq, Bool.eq_false_iff.2 fun hs => ?_⟩
  refine Bool.eq_false_iff.1 (h.raised_eq_false hf i) (Wall.raised_reconcile c ?_)
  rw [Wall.raised_eq_staff, hk]
  exact hs

/-- Without a frame in progress, all workers are ready. -/
theorem Reached.ready {t : Tracked} (h : Reached t) (hf : t.run.wall.presenting = 0) {i : Nat}
    {k : Worker} (hk : t.run.wall.staff[i]? = some (some k)) : k.Ready where
  exited_eq := h.orderly.serving i k hk
  queue_eq := by
    have hw := h.orderly.waiting_eq hf i
    rwa [Wall.waiting, hk, List.length_eq_zero_iff] at hw
  signal_eq := by
    have hr := h.raised_eq_false hf i
    rwa [Wall.raised_eq_staff, hk] at hr

end VideoWall
