import VideoWall.Proofs.Fanin
import VideoWall.Proofs.Guarded
import VideoWall.Proofs.Hotplug

/-! The order in which hotplugs are told.

    The connection state turns when a hotplug is reported, and the turn is told later: after a
    vsync, if the hotplug cuts a cycle short. If whoever hears of that vsync reports another
    hotplug, the second turn is told before the first one, and the host ends up with the wrong
    state: `Wall.told_out_of_order`. Otherwise the host is told every turn in its order, however
    deep hotplug listeners report hotplugs of their own: `Wall.told_in_order`. The invariant is that
    at most one turn waits to be told, and that nothing above it on the stack of tasks reports
    another: `Waiting`. -/

namespace VideoWall

/-! ### Turns -/

theorem turnsFrom_append (b : Bool) (cs ds : List Bool) :
    turnsFrom b (cs ++ ds) = turnsFrom b cs ++ turnsFrom (cs.getLastD b) ds := by
  induction cs generalizing b with
  | nil => rfl
  | cons c cs ih =>
    rw [List.cons_append, turnsFrom_cons b c (cs ++ ds), turnsFrom_cons b c cs, ih c,
      List.append_assoc, List.getLastD_cons]

theorem getLastD_append (b : Bool) (cs ds : List Bool) :
    (cs ++ ds).getLastD b = ds.getLastD (cs.getLastD b) := by
  simp

theorem getLastD_toList (b : Bool) (o : Option Bool) : o.toList.getLastD b = o.getD b := by
  cases o <;> rfl

/-- The last turn leads to where the sequence ends. -/
theorem getLastD_turnsFrom (b : Bool) (cs : List Bool) :
    (turnsFrom b cs).getLastD b = cs.getLastD b := by
  induction cs generalizing b with
  | nil => rfl
  | cons c cs ih =>
    rw [turnsFrom, List.getLastD_cons, ← ih c]
    split
    · next h => rw [h]
    · rw [List.getLastD_cons]

/-! ### What waits to be told -/

theorem Task.hotplugs_cons (t : Task) (ts : List Task) :
    hotplugs (t :: ts) = t.hotplug?.toList ++ hotplugs ts := by
  rw [hotplugs, List.filterMap_cons]
  cases t.hotplug? <;> rfl

/-- Tasks of which at most one tells a hotplug; whatever comes before it is quiet. -/
inductive Waiting (scripts : List (List Op)) : List Task → Prop
  | nil : Waiting scripts []
  | quiet {t : Task} {ts : List Task} (ht : t.Guarded scripts false) (hts : Waiting scripts ts) :
    Waiting scripts (t :: ts)
  | last {t : Task} {ts : List Task} (ht : t.Guarded scripts true)
    (hts : ∀ u ∈ ts, u.Guarded scripts true) (hnil : Task.hotplugs ts = []) :
    Waiting scripts (t :: ts)

namespace Waiting

variable {scripts more : List (List Op)} {ts us : List Task}

theorem of_untold (h : ∀ t ∈ ts, t.Guarded scripts true) (hnil : Task.hotplugs ts = []) :
    Waiting scripts ts := by
  cases ts with
  | nil => exact .nil
  | cons t ts =>
    obtain ⟨ht, hts⟩ := List.forall_mem_cons.1 h
    refine .last ht hts ?_
    exact (List.append_eq_nil_iff.1 ((Task.hotplugs_append [t] ts).symm.trans hnil)).2

theorem quiet_append (h : ∀ t ∈ ts, t.Guarded scripts false) (hus : Waiting scripts us) :
    Waiting scripts (ts ++ us) := by
  induction ts with
  | nil => exact hus
  | cons t ts ih =>
    obtain ⟨ht, hts⟩ := List.forall_mem_cons.1 h
    exact .quiet ht (ih hts)

theorem append_untold (h : Waiting scripts ts) (hus : ∀ u ∈ us, u.Guarded scripts true)
    (hnil : Task.hotplugs us = []) : Waiting scripts (ts ++ us) := by
  induction h with
  | nil => exact .of_untold hus hnil
  | quiet ht _ ih => exact .quiet ht ih
  | last ht hts hnil' =>
    rw [List.cons_append]
    refine .last ht (List.forall_mem_append.2 ⟨hts, hus⟩) ?_
    rw [Task.hotplugs_append, hnil', hnil]
    rfl

theorem mono (h : Waiting scripts ts) (hp : scripts <+: more) : Waiting more ts := by
  induction h with
  | nil => exact .nil
  | quiet ht _ ih => exact .quiet (ht.mono hp) ih
  | last ht hts hnil => exact .last (ht.mono hp) (fun u hu => (hts u hu).mono hp) hnil

end Waiting

/-! ### Steps -/

/-- The connection state of the controller, while it is there. -/
def Wall.flag? (w : Wall) : Option Bool := w.controller.map (·.connected)

/-- A step from a wall with the given scripts and connection state: what it tells or leaves to be
    told is `told` and then the turn, if the connection state turns. -/
structure Effect.Tells (flag : Bool) (told : List Bool) (scripts : List (List Op)) (e : Effect) :
    Prop where
  guarded : e.wall.Guarded (e.wall.flag?.getD flag)
  scripts_le : scripts <+: e.wall.scripts
  waiting : Waiting e.wall.scripts e.tasks
  told_eq : Event.hotplugs e.events ++ Task.hotplugs e.tasks =
    told ++ turnsFrom flag e.wall.flag?.toList

namespace Wall

variable {w : Wall} {flag : Bool}

theorem Guarded.flag?_eq (h : w.Guarded flag) : w.flag? = none ∨ w.flag? = some flag := by
  rw [flag?]
  cases hc : w.controller with
  | none => exact .inl rfl
  | some c => exact .inr (congrArg some (h.controller c hc).connected_eq)

theorem Guarded.getD_flag? (h : w.Guarded flag) : w.flag?.getD flag = flag := by
  rcases h.flag?_eq with hf | hf <;> rw [hf] <;> rfl

theorem Guarded.turnsFrom_flag? (h : w.Guarded flag) : turnsFrom flag w.flag?.toList = [] := by
  rcases h.flag?_eq with hf | hf <;> rw [hf]
  · rfl
  · exact turnsFrom_self flag

end Wall

namespace Effect

variable {e : Effect} {flag : Bool} {scripts : List (List Op)}

theorem Quiet.told_eq (h : e.Quiet flag scripts) :
    Event.hotplugs e.events ++ Task.hotplugs e.tasks = [] := by
  rw [Event.hotplugs_eq_nil h.events, Task.hotplugs_eq_nil fun t ht => (h.tasks t ht).hotplug?]
  rfl

/-- A quiet step tells nothing. -/
theorem Quiet.tells (h : e.Quiet flag scripts) : e.Tells flag [] scripts where
  guarded := h.guarded.getD_flag?.symm ▸ h.guarded
  scripts_le := h.scripts_le
  waiting := .of_untold (fun t ht => (h.tasks t ht).of_quiet true)
    (List.append_eq_nil_iff.1 h.told_eq).2
  told_eq := by rw [h.told_eq, h.guarded.turnsFrom_flag?, List.append_nil]

end Effect

/-- Either the connection state turns, and the hotplug listener is to be told, or it stays. -/
theorem Controller.hotplug_cases (c : Controller) (outputs : Nat) (b : Bool) :
    ∃ flushed : List Delivery,
      (∀ d ∈ flushed, d.notice.hotplug? = none ∧ c.vsyncListener = some d.listener) ∧
      ((∃ listener, c.turns outputs b = true ∧ c.hotplugListener = some listener ∧
        c.hotplug outputs b =
          ({ c with cycle := .fresh outputs, stale := true, connected := b },
            flushed ++ [⟨listener, c.display, .hotplug b⟩])) ∨
        c.hotplug outputs b = ({ c with cycle := .fresh outputs, stale := true }, flushed)) := by
  obtain ⟨flushed, hflushed, heq⟩ := c.hotplug_eq outputs b
  refine ⟨flushed, hflushed, ?_⟩
  split at heq
  · next listener hturns hl => exact .inl ⟨listener, hturns, hl, heq⟩
  · exact .inr heq

namespace Wall

variable {w : Wall} {flag : Bool}

/-- A hotplug that turns the connection state is left to be told, after a vsync at most. -/
theorem Guarded.tells_hotplug (h : w.Guarded flag) (outputs : Nat) (b : Bool) :
    (w.enter (·.hotplug outputs b)).Tells flag [] w.scripts := by
  rcases w.enter_cases (·.hotplug outputs b) with ⟨-, he⟩ | ⟨c, hc, -⟩
  · rw [he]
    exact (h.quiet_self .ok).tells
  · have hg := h.controller c hc
    obtain rfl := hg.connected_eq
    obtain ⟨flushed, hflushed, hcases⟩ := c.hotplug_cases outputs b
    have hquiet : ∀ t ∈ flushed.map Task.deliver, t.Guarded w.scripts false := by
      intro t ht
      obtain ⟨d, hd, rfl⟩ := List.mem_map.1 ht
      obtain ⟨hn, hl⟩ := hflushed d hd
      rw [Task.Guarded, hn]
      exact ⟨fun hs => absurd hs Bool.false_ne_true, hg.vsync _ hl⟩
    have huntold : Task.hotplugs (flushed.map .deliver) = [] :=
      Task.hotplugs_eq_nil fun t ht => (hquiet t ht).hotplug?
    rcases hcases with ⟨listener, hturns, hl, heq⟩ | heq
    · rw [enter_eq hc heq]
      refine ⟨⟨h.onPresent, ?_⟩, List.prefix_rfl, ?_, ?_⟩
      · rintro c' ⟨⟩
        exact ⟨rfl, hg.vsync, hg.refresh, hg.hotplug⟩
      · rw [List.map_append, List.append_assoc]
        exact .quiet_append hquiet (.last ⟨fun _ => rfl, hg.hotplug listener hl⟩
          (List.forall_mem_singleton.2 trivial) rfl)
      · rw [List.map_append, Task.hotplugs_append, Task.hotplugs_append, huntold]
        exact (Controller.heed_of_turns hturns).2.symm
    · rw [enter_eq hc heq]
      have hr : w.Retains { w with delivering := w.delivering + 1 } := .of_eq rfl rfl rfl
      refine ((hr.setController hc ?_).quiet h ?_ (List.forall_mem_nil _)).tells
      · exact ⟨rfl, rfl, rfl, rfl⟩
      · exact List.forall_mem_append.2 ⟨hquiet, List.forall_mem_singleton.2 trivial⟩

/-- An operation that reports a hotplug. -/
theorem Guarded.tells_report (h : w.Guarded flag) (mark : Nat) {op : Op}
    (hop : op.isReport = true) : (w.begin mark op).Tells flag [] w.scripts := by
  cases op with
  | hotplugUpdate b =>
    rw [begin, asHolder]
    split
    · exact h.tells_hotplug _ b
    · exact (h.quiet_self .dropped).tells
  | plug i b =>
    have hg := h.of_retains (w.retains_setOutput i fun o => { o with connected := b })
    rw [begin, through]
    split
    · exact hg.tells_hotplug _ b
    · exact (hg.quiet_self .ok).tells
  | _ => cases hop

/-- A guarded operation tells nothing itself, and at most one turn is left to be told. -/
theorem Guarded.tells_begin (h : w.Guarded flag) (mark : Nat) {op : Op}
    (hop : op.isGuarded = true) : (w.begin mark op).Tells flag [] w.scripts := by
  cases hr : op.isReport with
  | true => exact h.tells_report mark hr
  | false => exact (h.quiet_begin mark hr hop).tells

/-- A hotplug listener is told, and whatever it does comes next. -/
theorem Guarded.tells_deliver (h : w.Guarded flag) {d : Delivery} {b : Bool}
    (hd : d.notice.hotplug? = some b) (hl : Hears w.scripts true d.listener) :
    (w.deliver d).Tells flag [b] w.scripts := by
  obtain ⟨tag, he⟩ := events_deliver hl
  have hr := w.retains_deliver d
  have hg := h.of_retains hr
  have hnil : Task.hotplugs (w.deliver d).tasks = [] := by
    rw [tasks_deliver]
    refine Task.hotplugs_eq_nil fun t ht => ?_
    obtain ⟨op, -, rfl⟩ := List.mem_map.1 ht
    rfl
  refine ⟨hg.getD_flag?.symm ▸ hg, hr.scripts_eq ▸ List.prefix_rfl, .of_untold ?_ hnil, ?_⟩
  · rw [hr.scripts_eq, tasks_deliver]
    exact fun t ht => Task.guarded_of_mem_perform (guarded_setOff hl) ht
  · rw [hg.turnsFrom_flag?, hnil, he]
    simp [Event.hotplugs, Event.hotplug?, hd]

/-- What a step tells or leaves to be told is what its task tells, and then the turn. -/
theorem Guarded.tells_exec (h : w.Guarded flag) (mark : Nat) {t : Task}
    (ht : t.Guarded w.scripts true) : (w.exec mark t).Tells flag t.hotplug?.toList w.scripts := by
  cases t with
  | perform op =>
    have hb := h.tells_begin mark ht.2
    have hreport : Task.hotplugs [.report op (w.begin mark op).reply] = [] := rfl
    refine ⟨hb.guarded, hb.scripts_le,
      hb.waiting.append_untold (List.forall_mem_singleton.2 trivial) hreport, ?_⟩
    show _ ++ Task.hotplugs ((w.begin mark op).tasks ++ _) = _
    rw [Task.hotplugs_append, hreport, List.append_nil]
    exact hb.told_eq
  | deliver d =>
    cases hd : d.notice.hotplug? with
    | none =>
      have hl := ht.2
      rw [hd] at hl
      rw [Task.hotplug?, hd]
      exact (h.quiet_deliver hd hl).tells
    | some b =>
      have hl := ht.2
      rw [hd] at hl
      rw [Task.hotplug?, hd]
      exact h.tells_deliver hd hl
  | _ =>
    refine Effect.Quiet.tells (h.quiet_exec mark ?_)
    trivial

/-- The first task is done. Either it is quiet, so that nothing turns, or nothing waits beneath. -/
theorem Guarded.waiting_exec (h : w.Guarded flag) (mark : Nat) {t : Task} {ts : List Task}
    (hw : Waiting w.scripts (t :: ts)) :
    (w.exec mark t).Tells flag t.hotplug?.toList w.scripts ∧
      Waiting (w.exec mark t).wall.scripts ((w.exec mark t).tasks ++ ts) ∧
      turnsFrom flag (w.exec mark t).wall.flag?.toList ++ Task.hotplugs ts =
        Task.hotplugs ts ++ turnsFrom flag (w.exec mark t).wall.flag?.toList := by
  cases hw with
  | quiet ht hts =>
    have hq := h.quiet_exec mark ht
    refine ⟨?_, .quiet_append hq.tasks (hts.mono hq.scripts_le), ?_⟩
    · rw [ht.hotplug?]
      exact hq.tells
    · rw [hq.guarded.turnsFrom_flag?, List.append_nil]
      rfl
  | last ht hts hnil =>
    have htells := h.tells_exec mark ht
    refine ⟨htells, htells.waiting.append_untold ?_ hnil, ?_⟩
    · exact fun u hu => (hts u hu).mono htells.scripts_le
    · rw [hnil, List.append_nil]
      rfl

end Wall

/-! ### Runs -/

namespace Run

variable {r : Run} {flag : Bool}

/-- The connection states that were told or wait to be told, in order. -/
def hotplugs (r : Run) : List Bool := Event.hotplugs r.events ++ Task.hotplugs r.tasks

/-- The connection states after each of the next steps, `fuel` of them at most, until the run is at
    rest or the controller goes. -/
def flags : Nat → Run → List Bool
  | 0, _ => []
  | fuel + 1, r => if r.isAtRest then [] else r.next.wall.flag?.toList ++ flags fuel r.next

/-- A run on a guarded wall whose connection state is `flag`, while the controller is there. -/
structure Sequenced (flag : Bool) (r : Run) : Prop where
  guarded : r.wall.Guarded flag
  waiting : Waiting r.wall.scripts r.tasks

/-- What a step comes to. -/
structure Advances (flag : Bool) (r s : Run) : Prop where
  sequenced : s.Sequenced (s.wall.flag?.getD flag)
  hotplugs_eq : s.hotplugs = r.hotplugs ++ turnsFrom flag s.wall.flag?.toList

/-- The loops get their turns. -/
theorem Sequenced.poll (h : r.Sequenced flag) (hnil : r.tasks = []) : r.Advances flag r.next := by
  rw [next, hnil]
  have hpolls : ∀ t ∈ r.late.map Task.poll, t.Guarded r.wall.scripts true := by
    intro t ht
    obtain ⟨i, -, rfl⟩ := List.mem_map.1 ht
    trivial
  have huntold : Task.hotplugs (r.late.map .poll) = [] := by
    refine Task.hotplugs_eq_nil fun t ht => ?_
    obtain ⟨i, -, rfl⟩ := List.mem_map.1 ht
    rfl
  refine ⟨⟨h.guarded.getD_flag?.symm ▸ h.guarded, .of_untold hpolls huntold⟩, ?_⟩
  rw [h.guarded.turnsFrom_flag?, hotplugs, hotplugs, hnil, huntold]
  simp

/-- Grouping aside, what was told stays told. -/
theorem hotplugs_events_does (r : Run) (t : Task) :
    Event.hotplugs (r.does t).events =
      Event.hotplugs r.events ++ Event.hotplugs (r.wall.exec r.events.length t).events := by
  cases t with
  | group mark =>
    rw [does_group, Event.hotplugs_append, Event.hotplugs_grouped, ← Event.hotplugs_append,
      List.take_append_drop]
    exact (List.append_nil _).symm
  | _ =>
    rw [does_eq r (by simp)]
    exact Event.hotplugs_append ..

/-- The first task is done, with what it leaves behind on top of the others. -/
theorem Sequenced.does {t : Task} {ts : List Task} (h : (r.doing (t :: ts)).Sequenced flag) :
    (r.doing (t :: ts)).Advances flag ((r.does t).doing ((r.does t).tasks ++ ts)) := by
  obtain ⟨htells, hwaiting, hcomm⟩ := h.guarded.waiting_exec r.events.length h.waiting
  have hevents := r.hotplugs_events_does t
  rw [doing_wall] at htells hwaiting hcomm
  refine ⟨⟨?_, ?_⟩, ?_⟩
  · rw [doing_wall, wall_does]
    exact htells.guarded
  · rw [doing_wall, doing_tasks, wall_does, tasks_does]
    exact hwaiting
  · rw [doing_wall, wall_does, hotplugs, hotplugs, doing_events, doing_events, doing_tasks,
      doing_tasks, hevents, tasks_does, Task.hotplugs_append]
    calc Event.hotplugs r.events ++ _ ++ (_ ++ Task.hotplugs ts)
      _ = Event.hotplugs r.events ++ (Event.hotplugs (r.wall.exec r.events.length t).events ++
            Task.hotplugs (r.wall.exec r.events.length t).tasks) ++ Task.hotplugs ts := by
        simp only [List.append_assoc]
      _ = Event.hotplugs r.events ++ t.hotplug?.toList ++
            (turnsFrom flag (r.wall.exec r.events.length t).wall.flag?.toList ++
              Task.hotplugs ts) := by
        rw [htells.told_eq]
        simp only [List.append_assoc]
      _ = Event.hotplugs r.events ++ Task.hotplugs (t :: ts) ++
            turnsFrom flag (r.wall.exec r.events.length t).wall.flag?.toList := by
        rw [hcomm, Task.hotplugs_cons]
        simp only [List.append_assoc]

/-- A step tells or leaves to be told the turn that it makes, if any, after whatever came before. -/
theorem Sequenced.next (h : r.Sequenced flag) : r.Advances flag r.next := by
  rcases hts : r.tasks with _ | ⟨t, ts⟩
  · exact h.poll hts
  · have hr : r = r.doing (t :: ts) := by rw [← hts, doing_self]
    rw [hr] at h ⊢
    rw [next_doing_cons]
    exact h.does

/-- Whatever is told over a run is told in the order of the turns. -/
theorem Sequenced.steps (h : r.Sequenced flag) (fuel : Nat) :
    (r.steps fuel).Sequenced ((r.flags fuel).getLastD flag) ∧
      (r.steps fuel).hotplugs = r.hotplugs ++ turnsFrom flag (r.flags fuel) := by
  induction fuel generalizing r flag with
  | zero => exact ⟨h, (List.append_nil _).symm⟩
  | succ fuel ih =>
    rw [Run.steps, flags]
    split
    · exact ⟨h, (List.append_nil _).symm⟩
    · obtain ⟨hnext, htold⟩ := h.next
      obtain ⟨hlast, hall⟩ := ih hnext
      rw [turnsFrom_append, getLastD_append, getLastD_toList, hall, htold, List.append_assoc]
      exact ⟨hlast, rfl⟩

end Run

namespace Wall

variable {w : Wall} {flag : Bool}

/-- The connection states after each step of an operation. -/
def flags (w : Wall) (op : Op) : List Bool :=
  let e := w.begin 0 op
  e.wall.flag?.toList ++
    Run.flags (op.cost w.tiles.length + w.cost) ⟨e.wall, e.tasks, e.late, e.events, e.log⟩

/-- The connection states after each step of some operations. -/
def flagsAll (w : Wall) : List Op → List Bool
  | [] => []
  | op :: ops => w.flags op ++ (w.perform op).1.flagsAll ops

/-- A guarded operation keeps the wall guarded, and tells its turns in their order. -/
theorem Guarded.perform (h : w.Guarded flag) {op : Op} (hop : op.isGuarded = true) :
    (w.perform op).1.Guarded ((w.flags op).getLastD flag) ∧
      Event.hotplugs (w.perform op).2.events = turnsFrom flag (w.flags op) := by
  have hb := h.tells_begin 0 hop
  have hstart : Run.Sequenced ((w.begin 0 op).wall.flag?.getD flag)
      ⟨(w.begin 0 op).wall, (w.begin 0 op).tasks, (w.begin 0 op).late, (w.begin 0 op).events,
        (w.begin 0 op).log⟩ := ⟨hb.guarded, hb.waiting⟩
  obtain ⟨hlast, htold⟩ := hstart.steps (op.cost w.tiles.length + w.cost)
  have hrest := w.isAtRest_runOf op
  rw [Run.isAtRest, Bool.and_eq_true, List.isEmpty_iff] at hrest
  rw [flags, turnsFrom_append, getLastD_append, getLastD_toList]
  refine ⟨hlast.guarded, ?_⟩
  calc Event.hotplugs (w.runOf op).events
    _ = (w.runOf op).hotplugs := by rw [Run.hotplugs, hrest.1]; exact (List.append_nil _).symm
    _ = _ := htold
    _ = _ := congrArg (· ++ _) hb.told_eq

theorem Guarded.performAll (h : w.Guarded flag) {ops : List Op}
    (hops : Op.areGuarded true ops = true) :
    (w.performAll ops).1.Guarded ((w.flagsAll ops).getLastD flag) ∧
      Event.hotplugs (w.performAll ops).2 = turnsFrom flag (w.flagsAll ops) := by
  induction ops generalizing w flag with
  | nil => exact ⟨h, rfl⟩
  | cons op ops ih =>
    obtain ⟨⟨-, hop⟩, hops⟩ := by simpa only [Op.areGuarded, Bool.and_eq_true] using hops
    obtain ⟨hw, htold⟩ := h.perform hop
    obtain ⟨hw', htold'⟩ := ih hw hops
    rw [flagsAll, getLastD_append, turnsFrom_append]
    refine ⟨hw', ?_⟩
    rw [Wall.performAll]
    dsimp only
    rw [Event.hotplugs_append, htold, htold']

/-- A new wall has no scripts yet. -/
theorem guarded_create (outputs : List Output) (policy : Policy) :
    (create outputs policy).Guarded (decide (0 < outputs.countP (·.connected))) := by
  refine ⟨?_, ?_⟩
  · intro t ht
    obtain ⟨o, -, rfl⟩ := List.mem_map.1 ht
    rfl
  · rintro c ⟨⟩
    refine ⟨rfl, ?_, ?_, ?_⟩ <;> rintro n ⟨⟩

/-- Operations on a new wall, whose listeners call back and whose outputs come and go as they like;
    but only the operations themselves and hotplug listeners report hotplugs. Hotplugs are told in
    the order in which the connection state turns, and the last one told is the connection state at
    the end. -/
theorem told_in_order (outputs : List Output) (policy : Policy) (ops : List Op)
    (h : Op.areGuarded true ops = true) :
    let first := decide (0 < outputs.countP (·.connected))
    let w := create outputs policy
    let told := Event.hotplugs (w.performAll ops).2
    told = turnsFrom first (w.flagsAll ops) ∧
      ∀ c, (w.performAll ops).1.controller = some c → told.getLastD first = c.connected := by
  intro first w told
  obtain ⟨hw, htold⟩ := (guarded_create outputs policy).performAll h
  refine ⟨htold, ?_⟩
  intro c hc
  calc told.getLastD first
    _ = (turnsFrom first (w.flagsAll ops)).getLastD first := congrArg (List.getLastD · first) htold
    _ = (w.flagsAll ops).getLastD first := getLastD_turnsFrom ..
    _ = c.connected := (hw.controller c hc).connected_eq.symm

/-- Of two connected outputs, one disappears without a report, and then the other one is unplugged.
    That cuts a cycle short, and the vsync listener brings back the first one, again without a
    report; the hotplug listener plugs in the second one. -/
def replugging : List Op :=
  [.listen .vsync ⟨7⟩ "vsync" [.change 1 { connected := some true } none] 1,
    .listen .hotplug ⟨7⟩ "hotplug" [.plug 0 true] 1, .control true, .vsyncUpdate 100,
    .change 1 { connected := some false } none, .plug 0 false]

/-- The connection is lost and found again, and the host is told so. -/
theorem told_in_order_replugging :
    Op.areGuarded true replugging = true ∧
      Event.hotplugs ((create [{}, {}] {}).performAll replugging).2 = [false, true] := by
  have h : Op.areGuarded true replugging = true := by decide
  obtain ⟨htold, -⟩ := told_in_order [{}, {}] {} replugging h
  have hflags : turnsFrom (decide (0 < ([{}, {}] : List Output).countP (·.connected)))
      ((create [{}, {}] {}).flagsAll replugging) = [false, true] := by decide
  exact ⟨h, htold.trans hflags⟩

/-- A hotplug cuts a cycle short, and the vsync listener, which hears of it first, unplugs the
    output and reports so. -/
def overtaking : List Op :=
  [.listen .hotplug ⟨7⟩ "hotplug" [] 0,
    .listen .vsync ⟨7⟩ "vsync"
      [.change 0 { connected := some false } none, .hotplugUpdate false] 1,
    .control true, .change 0 { connected := some true } none,
    .change 1 { connected := some true } none, .hotplugUpdate false, .vsyncUpdate 100,
    .change 1 { connected := some false } none, .hotplugUpdate true]

/-- The connection is found and lost again, but the host is told of the loss first, and is left
    with the wrong state. -/
theorem told_out_of_order :
    let w := create [{ connected := false }, { connected := false }] {}
    turnsFrom false (w.flagsAll overtaking) = [true, false] ∧
      Event.hotplugs (w.performAll overtaking).2 = [false, true] ∧
      (w.performAll overtaking).1.flag? = some false := by
  decide

end Wall

end VideoWall
