import VideoWall.Wall.Rest

/-! A task and all that it causes.

    What a task leaves behind is done before whatever was left before it, so the tasks of a run are
    a stack: doing some tasks and then others is doing them all. `Run.after` is the run once some
    tasks are done with all that they cause, and `Run.during` lists the runs on the way there;
    neither depends on what is left to do beneath. The laws are `Run.after_append` and, for one
    step, `Run.after_cons`; `Wall.runOf_eq` says that this is how an operation comes to its
    end, apart from the loops that get their turn afterwards. -/

namespace VideoWall

namespace Run

/-- The run with something else left to do. -/
def doing (r : Run) (ts : List Task) : Run := { r with tasks := ts }

@[simp] theorem doing_wall (r : Run) (ts : List Task) : (r.doing ts).wall = r.wall := rfl

@[simp] theorem doing_tasks (r : Run) (ts : List Task) : (r.doing ts).tasks = ts := rfl

@[simp] theorem doing_late (r : Run) (ts : List Task) : (r.doing ts).late = r.late := rfl

@[simp] theorem doing_events (r : Run) (ts : List Task) : (r.doing ts).events = r.events := rfl

@[simp] theorem doing_doing (r : Run) (ts us : List Task) :
    (r.doing ts).doing us = r.doing us := rfl

@[simp] theorem doing_self (r : Run) : r.doing r.tasks = r := rfl

/-- Takes steps until no task is left, at most `fuel` of them. -/
def drain : Nat → Run → Run
  | 0, r => r
  | fuel + 1, r => if r.tasks.isEmpty then r else drain fuel r.next

/-- The runs on the way there. -/
def passed : Nat → Run → List Run
  | 0, r => [r]
  | fuel + 1, r => r :: if r.tasks.isEmpty then [] else passed fuel r.next

/-- The run once some tasks are done, with all that they cause. -/
def after (r : Run) (ts : List Task) : Run := drain (r.doing ts).cost (r.doing ts)

/-- The runs at which some task of these, or of what they cause, comes next, and the one at the
    end. -/
def during (r : Run) (ts : List Task) : List Run := passed (r.doing ts).cost (r.doing ts)

/-- Does one task; what it causes is left. -/
def does (r : Run) (t : Task) : Run := (r.doing [t]).next

/-- The run after an effect; what the effect leaves behind is left to do. -/
def incur (r : Run) (e : Effect) : Run where
  wall := e.wall
  tasks := e.tasks
  late := r.late ++ e.late
  events := r.events ++ e.events
  log := r.log ++ e.log

/-! ### Steps -/

variable {r s : Run} {t : Task} {ts us : List Task}

theorem isAtRest_doing_cons (r : Run) (t : Task) (ts : List Task) :
    (r.doing (t :: ts)).isAtRest = false := rfl

/-- A step does the first task and leaves the others for later. -/
theorem next_doing_cons (r : Run) (t : Task) (ts : List Task) :
    (r.doing (t :: ts)).next = (r.does t).doing ((r.does t).tasks ++ ts) := by
  cases t <;> simp [does, next, doing]

/-- Any task but a grouping is executed on the wall. -/
theorem does_eq (r : Run) (h : ∀ mark, t ≠ .group mark) :
    r.does t = r.incur (r.wall.exec r.events.length t) := by
  cases t with
  | group mark => exact absurd rfl (h mark)
  | _ => simp [does, next, doing, incur]

/-- A grouping reorders the events from its mark on. -/
theorem does_group (r : Run) (mark : Nat) :
    r.does (.group mark) =
      { r with
        tasks := [], events := r.events.take mark ++ Event.grouped (r.events.drop mark) } := rfl

/-- Whatever the task is, the wall is the one that executing it leaves. -/
theorem wall_does (r : Run) (t : Task) :
    (r.does t).wall = (r.wall.exec r.events.length t).wall := by
  cases t <;> rfl

theorem tasks_does (r : Run) (t : Task) :
    (r.does t).tasks = (r.wall.exec r.events.length t).tasks := by
  cases t with
  | group mark => rfl
  | _ => simp [does, next, doing]

/-- A step changes the wall as its task does; without a task, it changes none. -/
theorem wall_next_of_cons (h : r.tasks = t :: ts) :
    r.next.wall = (r.wall.exec r.events.length t).wall := by
  rw [← wall_does, show r = r.doing (t :: ts) by rw [← h, doing_self], next_doing_cons]
  rfl

theorem tasks_next_of_cons (h : r.tasks = t :: ts) :
    r.next.tasks = (r.wall.exec r.events.length t).tasks ++ ts := by
  rw [← tasks_does, show r = r.doing (t :: ts) by rw [← h, doing_self], next_doing_cons]
  rfl

theorem log_next_of_cons (h : r.tasks = t :: ts) :
    r.next.log = r.log ++ (r.wall.exec r.events.length t).log := by
  rw [next, h]
  cases t with
  | group mark => exact (List.append_nil _).symm
  | _ => rfl

theorem wall_next_of_nil (h : r.tasks = []) : r.next.wall = r.wall := by
  rw [next, h]

/-! ### Fuel -/

theorem drain_of_tasks_eq_nil (h : r.tasks = []) (fuel : Nat) :
    drain fuel r = r ∧ passed fuel r = [r] := by
  cases fuel with
  | zero => exact ⟨rfl, rfl⟩
  | succ fuel => simp [drain, passed, h]

theorem drain_succ (h : r.tasks ≠ []) (fuel : Nat) :
    drain (fuel + 1) r = drain fuel r.next ∧ passed (fuel + 1) r = r :: passed fuel r.next := by
  simp [drain, passed, h]

theorem cost_next_lt_of_tasks (h : r.tasks ≠ []) : r.next.cost < r.cost := by
  refine cost_next_lt ?_
  simp [isAtRest, h]

/-- More fuel than a run costs makes no difference. -/
theorem drain_congr {m n : Nat} (hm : r.cost ≤ m) (hn : r.cost ≤ n) :
    drain m r = drain n r ∧ passed m r = passed n r := by
  induction m generalizing n r with
  | zero =>
    have hnil : r.tasks = [] := Classical.byContradiction fun h => by
      have := cost_next_lt_of_tasks h
      omega
    rw [(drain_of_tasks_eq_nil hnil n).1, (drain_of_tasks_eq_nil hnil n).2]
    exact drain_of_tasks_eq_nil hnil 0
  | succ m ih =>
    by_cases h : r.tasks = []
    · rw [(drain_of_tasks_eq_nil h n).1, (drain_of_tasks_eq_nil h n).2]
      exact drain_of_tasks_eq_nil h (m + 1)
    · have hlt := cost_next_lt_of_tasks h
      cases n with
      | zero => omega
      | succ n =>
        rw [(drain_succ h m).1, (drain_succ h n).1, (drain_succ h m).2, (drain_succ h n).2]
        obtain ⟨hd, hp⟩ := ih (r := r.next) (n := n) (by omega) (by omega)
        exact ⟨hd, congrArg _ hp⟩

/-! ### The laws -/

/-- With nothing to do, nothing happens. -/
theorem after_nil (r : Run) : r.after [] = r.doing [] :=
  (drain_of_tasks_eq_nil rfl _).1

theorem during_nil (r : Run) : r.during [] = [r.doing []] :=
  (drain_of_tasks_eq_nil rfl _).2

theorem unfold_cons (r : Run) (t : Task) (ts : List Task) :
    r.after (t :: ts) = (r.does t).after ((r.does t).tasks ++ ts) ∧
      r.during (t :: ts) = r.doing (t :: ts) :: (r.does t).during ((r.does t).tasks ++ ts) := by
  have hne : (r.doing (t :: ts)).tasks ≠ [] := List.cons_ne_nil t ts
  have hlt := cost_next_lt_of_tasks hne
  obtain ⟨n, hn⟩ := Nat.exists_eq_add_of_lt hlt
  rw [next_doing_cons] at hlt
  obtain ⟨hd, hp⟩ := drain_congr (Nat.le_refl _) (Nat.le_add_right _ n)
    (r := (r.does t).doing ((r.does t).tasks ++ ts))
  rw [after, during, hn, (drain_succ hne _).1, (drain_succ hne _).2, next_doing_cons, ← hd, ← hp]
  exact ⟨rfl, rfl⟩

/-- Doing some tasks begins with the first of them and goes on with what it leaves behind. -/
theorem after_cons (r : Run) (t : Task) (ts : List Task) :
    r.after (t :: ts) = (r.does t).after ((r.does t).tasks ++ ts) := (unfold_cons r t ts).1

theorem during_cons (r : Run) (t : Task) (ts : List Task) :
    r.during (t :: ts) = r.doing (t :: ts) :: (r.does t).during ((r.does t).tasks ++ ts) :=
  (unfold_cons r t ts).2

/-- What holds with nothing to do, and for some tasks if it holds once the first of them is done,
    holds for all tasks. -/
theorem tasks_induction {motive : Run → List Task → Prop} (nil : ∀ r, motive r [])
    (cons : ∀ r t ts, motive (r.does t) ((r.does t).tasks ++ ts) → motive r (t :: ts))
    (r : Run) (ts : List Task) : motive r ts := by
  induction hn : (r.doing ts).cost using Nat.strongRecOn generalizing r ts with
  | _ n ih =>
    cases ts with
    | nil => exact nil r
    | cons t ts =>
      have hlt := cost_next_lt_of_tasks (r := r.doing (t :: ts)) (List.cons_ne_nil t ts)
      rw [next_doing_cons, hn] at hlt
      exact cons r t ts (ih _ hlt _ _ rfl)

/-- What was left to do before does not matter. -/
@[simp] theorem after_doing (r : Run) (ts us : List Task) : (r.doing ts).after us = r.after us :=
  rfl

@[simp] theorem during_doing (r : Run) (ts us : List Task) :
    (r.doing ts).during us = r.during us := rfl

@[simp] theorem tasks_after (r : Run) (ts : List Task) : (r.after ts).tasks = [] := by
  induction r, ts using tasks_induction with
  | nil r => rw [after_nil, doing_tasks]
  | cons r t ts ih => rw [after_cons, ih]

/-- Tasks are done one after the other, each with all that it causes. -/
theorem after_append (r : Run) (ts us : List Task) :
    r.after (ts ++ us) = (r.after ts).after us := by
  induction r, ts using tasks_induction with
  | nil r => rw [after_nil, after_doing, List.nil_append]
  | cons r t ts ih => rw [List.cons_append, after_cons, after_cons, ← ih, List.append_assoc]

/-- A task is done by executing it and doing what that leaves behind. -/
theorem after_eq {e : Effect} (h : ∀ mark, t ≠ .group mark)
    (he : r.wall.exec r.events.length t = e) : r.after [t] = (r.incur e).after e.tasks := by
  rw [after_cons, does_eq r h, he, List.append_nil]
  rfl

/-- A task that leaves nothing behind. -/
theorem after_eq_of_tasks {e : Effect} (h : ∀ mark, t ≠ .group mark)
    (he : r.wall.exec r.events.length t = e) (ht : e.tasks = []) : r.after [t] = r.incur e := by
  rw [after_eq h he, ht, after_nil, ← ht]
  rfl

/-- The run at the end is among those on the way. -/
theorem after_mem_during (r : Run) (ts : List Task) : r.after ts ∈ r.during ts := by
  induction r, ts using tasks_induction with
  | nil r => rw [after_nil, during_nil]; exact List.mem_singleton_self _
  | cons r t ts ih => rw [after_cons, during_cons]; exact List.mem_cons_of_mem _ ih

theorem doing_mem_during (r : Run) (ts : List Task) : r.doing ts ∈ r.during ts := by
  cases ts with
  | nil => rw [during_nil]; exact List.mem_singleton_self _
  | cons t ts => rw [during_cons]; exact List.mem_cons_self

/-- While the first tasks are done, the others wait beneath; afterwards it is their turn. -/
theorem mem_during_append (r : Run) (ts us : List Task) :
    s ∈ r.during (ts ++ us) ↔
      (∃ v ∈ r.during ts, v.tasks ≠ [] ∧ s = v.doing (v.tasks ++ us)) ∨
        s ∈ (r.after ts).during us := by
  induction r, ts using tasks_induction with
  | nil r => simp [during_nil, after_nil]
  | cons r t ts ih =>
    rw [List.cons_append, during_cons, during_cons, after_cons, ← List.append_assoc, List.mem_cons,
      ih]
    simp [or_assoc]

/-- What holds at first, and after a step whenever it holds before, holds all the way. -/
theorem during_induction {P : Run → Prop} {r : Run} {ts : List Task} (h : P (r.doing ts))
    (hstep : ∀ (s : Run) (t : Task) (us : List Task), s.doing (t :: us) ∈ r.during ts →
      (s.does t).doing ((s.does t).tasks ++ us) ∈ r.during ts → P (s.doing (t :: us)) →
      P ((s.does t).doing ((s.does t).tasks ++ us))) : ∀ s ∈ r.during ts, P s := by
  induction r, ts using tasks_induction with
  | nil r =>
    intro s hs
    rw [during_nil, List.mem_singleton] at hs
    exact hs ▸ h
  | cons r t ts ih =>
    rw [during_cons] at hstep ⊢
    have hnext := hstep r t ts List.mem_cons_self
      (List.mem_cons_of_mem _ (doing_mem_during _ _)) h
    intro s hs
    rcases List.mem_cons.1 hs with rfl | hs
    · exact h
    · exact ih hnext (fun v u us hv hv' => hstep v u us (List.mem_cons_of_mem _ hv)
        (List.mem_cons_of_mem _ hv')) s hs

/-! ### Operations -/

/-- Begins an operation; what it causes is left. -/
def begin (r : Run) (op : Op) : Run := r.incur (r.wall.begin r.events.length op)

/-- The run once an operation is performed, with all that it causes. -/
def call (r : Run) (op : Op) : Run := (r.begin op).after (r.begin op).tasks

/-- The runs on the way there. -/
def calling (r : Run) (op : Op) : List Run := (r.begin op).during (r.begin op).tasks

/-- To note a reply is to note it. -/
theorem after_report (r : Run) (op : Op) (reply : Reply) :
    r.after [.report op reply] =
      { r.doing [] with events := r.events ++ [.performed op reply] } := by
  rw [after_eq_of_tasks (by simp) rfl rfl]
  simp [incur, doing, Wall.exec]

/-- To perform an operation of a script is to begin it, and to note its reply in the end. -/
theorem does_perform (r : Run) (op : Op) :
    r.does (.perform op) = (r.begin op).doing
      ((r.begin op).tasks ++ [.report op (r.wall.begin r.events.length op).reply]) := by
  rw [does_eq r (by simp)]
  rfl

/-- An operation of a script is performed with all that it causes before its reply is noted. -/
theorem after_perform (r : Run) (op : Op) :
    r.after [.perform op] =
      { r.call op with
        events := (r.call op).events ++
          [.performed op (r.wall.begin r.events.length op).reply] } := by
  have htasks : (r.call op).doing [] = r.call op := by
    rw [← tasks_after (r.begin op) (r.begin op).tasks]
    rfl
  rw [after_cons, does_perform, List.append_nil, after_doing, doing_tasks, after_append,
    after_report, ← call, htasks]

/-! ### To rest -/

/-- The run once nothing is left to do; the loops have had their turns. -/
def settled (r : Run) : Run := steps r.cost r

theorem steps_of_isAtRest (h : r.isAtRest = true) (fuel : Nat) : steps fuel r = r := by
  cases fuel with
  | zero => rfl
  | succ fuel => rw [steps, if_pos h]

theorem settled_of_isAtRest (h : r.isAtRest = true) : r.settled = r := steps_of_isAtRest h _

/-- More fuel than a run costs makes no difference. -/
theorem steps_congr {m n : Nat} (hm : r.cost ≤ m) (hn : r.cost ≤ n) :
    steps m r = steps n r := by
  induction m generalizing n r with
  | zero =>
    have hrest := isAtRest_steps hm
    rw [steps] at hrest ⊢
    rw [steps_of_isAtRest hrest]
  | succ m ih =>
    cases hr : r.isAtRest with
    | true => rw [steps_of_isAtRest hr, steps_of_isAtRest hr]
    | false =>
      have hlt := cost_next_lt hr
      cases n with
      | zero => omega
      | succ n =>
        rw [steps, steps, hr]
        exact ih (by omega) (by omega)

theorem settled_next (h : r.isAtRest = false) : r.next.settled = r.settled := by
  have hlt := cost_next_lt h
  obtain ⟨n, hn⟩ := Nat.exists_eq_add_of_lt hlt
  rw [settled, settled, hn, steps, h]
  exact steps_congr (Nat.le_refl _) (Nat.le_add_right _ n)

/-- A run comes to rest by way of doing what is left. -/
theorem settled_after (r : Run) (ts : List Task) : (r.after ts).settled = (r.doing ts).settled := by
  induction r, ts using tasks_induction with
  | nil r => rw [after_nil]
  | cons r t ts ih =>
    rw [after_cons, ih, ← next_doing_cons, settled_next (isAtRest_doing_cons r t ts)]

end Run

/-- A wall with nothing to do. -/
def Wall.resting (w : Wall) : Run := { wall := w }

/-- An operation is performed with all that it causes, and then the loops get their turns. -/
theorem Wall.runOf_eq (w : Wall) (op : Op) : w.runOf op = (w.resting.call op).settled := by
  have h := Wall.within_begin w 0 op
  have hc := h.cost_le
  rw [Run.call, Run.settled_after]
  refine Run.steps_congr ?_ (Nat.le_refl _)
  simp only [Run.cost, h.length_eq]
  omega

/-- An operation that makes no loop wait for its turn ends as soon as its tasks are done. -/
theorem Wall.runOf_eq_call {w : Wall} {op : Op} (h : (w.resting.call op).late = []) :
    w.runOf op = w.resting.call op := by
  rw [runOf_eq, Run.settled_of_isAtRest]
  rw [Run.isAtRest, h, Run.call, Run.tasks_after]
  rfl

end VideoWall
