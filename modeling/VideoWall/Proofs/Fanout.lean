import VideoWall.Proofs.Chronicle
import VideoWall.Wall.Traffic

/-! One thread at a time.

    When nobody else acts while a call is on its way, it comes to all outputs at once: that is what
    `Wall.begin` has it do. So whatever a wall comes to by operations of its host, one after
    another, it can come to in traffic with a single host, too, and no call ever comes to an output
    out of order: `Wall.Brings.exists_moves`. -/

namespace VideoWall

/-- Whether somebody has listened for vsync by the time a task is done, if `before` says so of the
    time before it. -/
def Wall.listened (w : Wall) (t : Task) (before : Bool) : Bool :=
  before || match t with
    | .perform (.listen .vsync ..) => w.held && w.controller.isSome
    | _ => false

/-! ### A call that comes to all outputs -/

namespace Fanout

/-- A tile that the call has come to. -/
def applyTile (f : Fanout) (t : Tile) : Tile := { t with output := f.apply t.output }

/-- The loops of some tiles that a call starts. -/
def started (f : Fanout) (tiles : List Tile) : List Nat :=
  tiles.zipIdx.filterMap fun (t, i) => if f.starts t.output then some i else none

theorem started_concat (f : Fanout) (xs : List Tile) (y : Tile) :
    f.started (xs ++ [y]) = f.started xs ++ if f.starts y.output then [xs.length] else [] := by
  simp only [started, List.zipIdx_append, List.filterMap_append]
  cases hy : f.starts y.output <;> simp [hy]

theorem started_eq_nil {f : Fanout} (h : ∀ o, f.starts o = false) (tiles : List Tile) :
    f.started tiles = [] := by
  simp [started, h]

end Fanout

namespace Wall

variable {w v : Wall} {call : Fanout} {op : Op}

/-- An operation that goes to the outputs changes the controller and then every output. -/
theorem begin_of_commit?_eq_some (mark : Nat) (h : w.commit? op = some (v, call)) :
    v.tiles = w.tiles ∧
      (w.begin mark op).wall = { v with tiles := v.tiles.map call.applyTile } ∧
      (w.begin mark op).tasks = [] ∧ (w.begin mark op).reply = .ok ∧
      (w.begin mark op).late = call.started v.tiles := by
  rw [commit?] at h
  split at h
  · next c hh hc =>
    split at h
    · next mode =>
      cases h
      have hlate : w.starting mode = (Fanout.power mode).started w.tiles := by
        rw [starting, Fanout.started]
        congr 1
        funext p
        obtain ⟨t, i⟩ := p
        cases hl : t.output.loop <;> simp [Fanout.starts, hl]
      have hbegin : w.begin mark (.setPowerMode mode) = w.setPowerMode c mode := by
        rw [begin, asHolder, hh, hc]
      rw [hbegin]
      exact ⟨rfl, rfl, rfl, rfl, hlate⟩
    · next enabled =>
      split at h
      · cases h
      · next hne =>
        cases h
        have hbegin : w.begin mark (.control enabled) = w.control c enabled := by
          rw [begin, asHolder, hh, hc]
        rw [hbegin, control, if_neg hne]
        exact ⟨rfl, rfl, rfl, rfl, (Fanout.started_eq_nil (fun _ => rfl) _).symm⟩
    · next channel display tag script limit =>
      cases h
      have hbegin : w.begin mark (.listen channel display tag script limit) =
          w.listen c channel display { tag, script, left := limit } := by
        rw [begin, asHolder, hh, hc]
      rw [hbegin]
      exact ⟨rfl, rfl, rfl, rfl, (Fanout.started_eq_nil (fun _ => rfl) _).symm⟩
    · cases h
  · cases h

theorem length_dispose (w : Wall) (mark : Nat) (x : Chore) :
    (w.dispose mark x).wall.tiles.length = w.tiles.length := by
  cases x with
  | walk k => rfl
  | forward time => exact (within_enter (k := 1) fun c => length_deliveries_vblank c time).length_eq
  | task t =>
    have hexec := (w.within_exec mark t).length_eq
    cases t with
    | item i y =>
      cases y with
      | remark r => exact hexec
      | flip f =>
        rcases w.dispose_flip_cases mark i f with ⟨-, he⟩ | ⟨l, -, he⟩
        · rw [he]
        · rw [he]
          exact length_setOutput ..
    | _ => exact hexec

/-- Whoever listens for vsync makes the controller register with its outputs. -/
theorem listened_perform (w : Wall) (op : Op) (before : Bool) :
    w.listened (.perform op) before =
      (before || (w.commit? op).any fun p => p.2 == .register .vsync) := by
  rw [commit?]
  cases op with
  | listen channel =>
    cases hh : w.held <;> cases hc : w.controller <;> cases channel <;> simp [listened, hh, hc]
  | control enabled =>
    cases w.held <;> cases w.controller
    case true.some c =>
      dsimp only
      split <;> rfl
    all_goals rfl
  | _ => cases w.held <;> cases w.controller <;> rfl

end Wall

namespace Traffic

variable {s : Traffic} {j : Nat} {rest : List Chore}

/-- All calls have come to all outputs, and none of them out of order. -/
def IsSettled (s : Traffic) : Prop :=
  ∀ v ∈ s.walks, s.wall.tiles.length ≤ v.next ∧ v.early = false

/-- A call that thread `j` makes has come to the tiles `xs` and not to `ys` yet; nobody else has
    done anything. -/
def midway (w : Wall) (threads : List (List Chore)) (old : List Walk) (j : Nat) (call : Fanout)
    (xs ys : List Tile) : Traffic where
  wall := { w with tiles := xs.map call.applyTile ++ ys }
  threads := threads ++ (call.started xs).map loopThread
  walks := old ++ [{ author := j, call, next := xs.length }]

/-- The call comes to the next tile. -/
theorem turn_midway {w : Wall} {threads : List (List Chore)} {old : List Walk} {call : Fanout}
    (hj : threads[j]? = some (.walk old.length :: rest)) (xs ys : List Tile) (y : Tile)
    (hold : ∀ u ∈ old, xs.length < u.next) (mark : Nat) :
    (midway w threads old j call xs (y :: ys)).turn j mark =
      midway w threads old j call (xs ++ [y]) ys := by
  have hthread : (midway w threads old j call xs (y :: ys)).threads[j]? =
      some (.walk old.length :: rest) := by
    rw [← hj]
    exact List.getElem?_append_left (List.getElem?_eq_some_iff.1 hj).1
  have hwalk : (midway w threads old j call xs (y :: ys)).walks[old.length]? =
      some { author := j, call, next := xs.length } := by
    simp [midway]
  have htile : (midway w threads old j call xs (y :: ys)).wall.tiles[xs.length]? = some y := by
    simp [midway]
  -- all earlier calls have come past this output
  have hover : (midway w threads old j call xs (y :: ys)).overtakes old.length
      { author := j, call, next := xs.length } = false := by
    rw [overtakes, List.any_eq_false]
    intro u hu
    have hmem : u ∈ old := by simpa [midway] using hu
    simp [Nat.not_le_of_lt (hold u hmem)]
  have hvisit : (midway w threads old j call xs (y :: ys)).visit? (.walk old.length) =
      some (old.length, { author := j, call, next := xs.length }, y) := by
    simp [visit?, hwalk, htile]
  rw [turn, hthread]
  dsimp only
  rw [hvisit]
  dsimp only [commit?]
  rw [visit, hover]
  simp only [midway, Fanout.started_concat, Wall.setOutput, Wall.setTile]
  congr 1
  · simp [List.modify_eq_take_drop, Fanout.applyTile]
  · cases call.starts y.output <;> simp
  · simp

/-- The call comes to all tiles that are left, one after another. -/
theorem exists_moves_midway {w : Wall} {threads : List (List Chore)} {old : List Walk}
    {call : Fanout} (hj : threads[j]? = some (.walk old.length :: rest)) (xs ys : List Tile)
    (hold : ∀ u ∈ old, xs.length + ys.length ≤ u.next) :
    ∃ ms, (midway w threads old j call xs ys).moves ms =
      midway w threads old j call (xs ++ ys) [] := by
  induction ys generalizing xs with
  | nil => exact ⟨[], by rw [List.append_nil]; rfl⟩
  | cons y ys ih =>
    have hpast : ∀ u ∈ old, xs.length + 1 + ys.length ≤ u.next := fun u hu => by
      have hle := hold u hu
      rw [List.length_cons] at hle
      omega
    have hstep : (midway w threads old j call xs (y :: ys)).turn j 0 =
        midway w threads old j call (xs ++ [y]) ys :=
      turn_midway hj xs ys y (fun u hu => by have hle := hpast u hu; omega) 0
    obtain ⟨ms, hms⟩ := ih (xs ++ [y]) (by rwa [List.length_append])
    refine ⟨.turn j 0 :: ms, ?_⟩
    rw [List.append_cons, ← hms, ← hstep]
    rfl

theorem moves_append (s : Traffic) (ms ns : List Move) :
    s.moves (ms ++ ns) = (s.moves ms).moves ns := List.foldl_append

/-- An operation that goes to the outputs, when nobody else acts until it is through. -/
theorem exists_moves_commit {op : Op} {w : Wall} {call : Fanout} (hs : s.IsSettled)
    (hj : s.threads[j]? = some (.task (.perform op) :: rest))
    (hw : s.wall.commit? op = some (w, call)) (mark : Nat) :
    ∃ ms, s.moves ms =
      { wall := (s.wall.begin mark op).wall
        threads := s.threads.set j (.task (.report op .ok) :: rest) ++
          (s.wall.begin mark op).late.map loopThread
        walks := s.walks ++ [{ author := j, call, next := s.wall.tiles.length }] } := by
  obtain ⟨htiles, hwall, -, -, hlate⟩ := Wall.begin_of_commit?_eq_some mark hw
  have hlt := (List.getElem?_eq_some_iff.1 hj).1
  generalize hrest : Chore.task (.report op .ok) :: rest = rest'
  have hcommit : s.turn j mark =
      midway w (s.threads.set j (.walk s.walks.length :: rest')) s.walks j call [] w.tiles := by
    rw [turn, hj]
    simp [commit?, hw, commit, midway, Fanout.started, hrest]
  have hset : (s.threads.set j (.walk s.walks.length :: rest'))[j]? =
      some (.walk s.walks.length :: rest') := List.getElem?_set_self hlt
  have hwalked : ∃ ms, (midway w (s.threads.set j (.walk s.walks.length :: rest')) s.walks j call []
      w.tiles).moves ms = midway w (s.threads.set j (.walk s.walks.length :: rest')) s.walks j call
        w.tiles [] := by
    refine exists_moves_midway hset [] w.tiles fun u hu => ?_
    rw [List.length_nil, Nat.zero_add, htiles]
    exact (hs u hu).1
  obtain ⟨ms, hms⟩ := hwalked
  -- at the end of its way a call has nothing left to do
  have hend : (midway w (s.threads.set j (.walk s.walks.length :: rest')) s.walks j call w.tiles
      []).turn j mark =
        { wall := { w with tiles := w.tiles.map call.applyTile }
          threads := s.threads.set j rest' ++ (call.started w.tiles).map loopThread
          walks := s.walks ++ [{ author := j, call, next := w.tiles.length }] } := by
    have hthread : (midway w (s.threads.set j (.walk s.walks.length :: rest')) s.walks j call
        w.tiles []).threads[j]? = some (.walk s.walks.length :: rest') := by
      rw [← hset]
      exact List.getElem?_append_left (by rwa [List.length_set])
    have hvisit : (midway w (s.threads.set j (.walk s.walks.length :: rest')) s.walks j call
        w.tiles []).visit? (.walk s.walks.length) = none := by
      simp [visit?, midway]
    rw [turn, hthread]
    dsimp only
    rw [hvisit]
    dsimp only [commit?, dispose, Wall.dispose, midway]
    rw [List.append_nil, List.set_append_left _ _ (by rwa [List.length_set]), List.set_set,
      List.nil_append, List.map_nil, List.append_nil]
  refine ⟨.turn j mark :: ms ++ [.turn j mark], ?_⟩
  rw [List.cons_append, ← List.singleton_append, moves_append, moves_append]
  show ((s.turn j mark).moves ms).turn j mark = _
  rw [hcommit, hms, hend, hwall, hlate, htiles]

/-! ### Runs as traffic -/

/-- What is first among all threads is first in one of them. -/
theorem exists_thread {threads : List (List Chore)} {x : Chore} {rest : List Chore}
    (h : threads.flatten = x :: rest) :
    ∃ (j : Nat) (own : List Chore), threads[j]? = some (x :: own) ∧
      ∀ (chores : List Chore) (more : List (List Chore)),
        (threads.set j (chores ++ own) ++ more).flatten = chores ++ rest ++ more.flatten := by
  induction threads with
  | nil => cases h
  | cons thread threads ih =>
    cases thread with
    | nil =>
      obtain ⟨j, own, hj, hflat⟩ := ih h
      exact ⟨j + 1, own, hj, fun chores more => hflat chores more⟩
    | cons y own =>
      obtain ⟨rfl, rfl⟩ := List.cons.inj h
      exact ⟨0, own, rfl, fun chores more => by simp⟩

theorem flatten_map_loopThread (tiles : List Nat) :
    (tiles.map loopThread).flatten = tiles.map fun i => .task (.poll i) := by
  induction tiles with
  | nil => rfl
  | cons i tiles ih => exact congrArg (Chore.task (.poll i) :: ·) ih

/-- Traffic in which `wall` has come about and `chores` are left to do, by one thread after
    another; every call is through. -/
structure Plays (s : Traffic) (wall : Wall) (listened : Bool) (chores : List Chore) : Prop where
  wall_eq : s.wall = wall
  listened_eq : s.listened = listened
  settled : s.IsSettled
  chores_eq : s.threads.flatten = chores
  host : 0 < s.threads.length

variable {w : Wall} {listened : Bool} {chores : List Chore}

/-- A chore that is done in one go. -/
theorem Plays.dispose {x : Chore} (h : s.Plays w listened (x :: chores))
    (hcommit : s.commit? x = none) (hwalk : ∀ k, x ≠ .walk k) (mark : Nat) :
    ∃ ms, (s.moves ms).Plays (w.dispose mark x).wall listened
      ((w.dispose mark x).chores ++ chores ++
        (w.dispose mark x).late.map fun i => .task (.poll i)) := by
  obtain ⟨rfl, hlistened, hsettled, hchores, hhost⟩ := h
  obtain ⟨j, own, hj, hflat⟩ := exists_thread hchores
  have hvisit : s.visit? x = none := by
    cases x with
    | walk k => exact absurd rfl (hwalk k)
    | _ => rfl
  have hturn : s.moves [.turn j mark] = s.dispose j mark x own := by
    show s.turn j mark = _
    rw [turn, hj]
    dsimp only
    rw [hcommit, hvisit]
  refine ⟨[.turn j mark], ?_⟩
  rw [hturn]
  refine ⟨rfl, hlistened, fun v hv => ?_, ?_, ?_⟩
  · have hlength : (s.dispose j mark x own).wall.tiles.length = s.wall.tiles.length :=
      s.wall.length_dispose mark x
    exact ⟨hlength ▸ (hsettled v hv).1, (hsettled v hv).2⟩
  · rw [← flatten_map_loopThread]
    exact hflat _ _
  · rw [Traffic.dispose, List.length_append, List.length_set]
    exact Nat.lt_of_lt_of_le hhost (Nat.le_add_right _ _)

/-- An operation that goes to the outputs. -/
theorem Plays.commit {op : Op} {v : Wall} {call : Fanout}
    (h : s.Plays w listened (.task (.perform op) :: chores)) (hv : w.commit? op = some (v, call))
    (mark : Nat) :
    ∃ ms, (s.moves ms).Plays (w.exec mark (.perform op)).wall
      (w.listened (.perform op) listened) ((w.exec mark (.perform op)).tasks.map .task ++ chores ++
        (w.exec mark (.perform op)).late.map fun i => .task (.poll i)) := by
  obtain ⟨rfl, rfl, hsettled, hchores, hhost⟩ := h
  obtain ⟨j, own, hj, hflat⟩ := exists_thread hchores
  obtain ⟨-, -, htasks, hreply, -⟩ := Wall.begin_of_commit?_eq_some mark hv
  obtain ⟨ms, hms⟩ := exists_moves_commit hsettled hj hv mark
  have hexec : (s.wall.exec mark (.perform op)).tasks = [.report op .ok] := by
    rw [Wall.exec]
    dsimp only
    rw [htasks, hreply]
    rfl
  have hlength := (s.wall.within_exec mark (.perform op)).length_eq
  refine ⟨ms, ?_⟩
  rw [hms, hexec]
  refine ⟨rfl, ?_, ?_, ?_, ?_⟩
  · rw [Wall.listened_perform, hv]
    simp [Traffic.listened]
  · intro u hu
    rcases List.mem_append.1 hu with hu | hu
    · exact ⟨hlength ▸ (hsettled u hu).1, (hsettled u hu).2⟩
    · rw [List.mem_singleton.1 hu]
      exact ⟨Nat.le_of_eq hlength, rfl⟩
  · rw [← flatten_map_loopThread]
    exact hflat [.task (.report op .ok)] _
  · rw [List.length_append, List.length_set]
    exact Nat.lt_of_lt_of_le hhost (Nat.le_add_right _ _)

/-- A flip that is forwarded at once. -/
theorem Plays.flip {i : Nat} {f : Drm.Flip}
    (h : s.Plays w listened (.task (.item i (.flip f)) :: chores)) (mark : Nat) :
    ∃ ms, (s.moves ms).Plays (w.exec mark (.item i (.flip f))).wall listened
      ((w.exec mark (.item i (.flip f))).tasks.map .task ++ chores ++
        (w.exec mark (.item i (.flip f))).late.map fun i => .task (.poll i)) := by
  obtain ⟨ms, hms⟩ := h.dispose rfl (fun k hk => by cases hk) mark
  rw [Wall.exec]
  rcases w.dispose_flip_cases mark i f with ⟨hl, hd⟩ | ⟨l, hl, hd⟩ <;> rw [hd] at hms
  · rcases w.item_cases i (.flip f) with ⟨log, he, -⟩ | ⟨l, g, log, hl', -⟩
    · rw [he]
      exact ⟨ms, hms⟩
    · rw [hl] at hl'
      cases hl'
  · rcases w.item_cases i (.flip f) with ⟨log, -, hnone⟩ | ⟨l', g, log, hl', hg, hcall⟩
    · rw [hnone.resolve_right (by simp [Vblank.Item.isFlip])] at hl
      cases hl
    · cases hg
      obtain rfl : l = l' := Option.some.inj (hl.symm.trans hl')
      rcases hcall with ⟨hcall, he⟩ | ⟨call, hcall, he⟩ <;> rw [he] <;> rw [hcall] at hms
      · exact ⟨ms, hms⟩
      · have hforward : (s.moves ms).Plays (w.setOutput i (·.mapLoop fun _ => (l.flip f).1))
            listened (.forward call.time :: (chores ++ [])) := hms
        rw [List.append_nil] at hforward
        obtain ⟨ms', hms'⟩ := hforward.dispose rfl (fun k hk => by cases hk) mark
        exact ⟨ms ++ ms', by rw [moves_append]; exact hms'⟩

/-- Any task, with all calls to the outputs that come of it. -/
theorem Plays.task {t : Task} (h : s.Plays w listened (.task t :: chores)) (mark : Nat) :
    ∃ ms, (s.moves ms).Plays (w.exec mark t).wall (w.listened t listened)
      ((w.exec mark t).tasks.map .task ++ chores ++
        (w.exec mark t).late.map fun i => .task (.poll i)) := by
  have hwhole : s.commit? (.task t) = none → (∀ i f, t ≠ .item i (.flip f)) →
      w.listened t listened = listened →
      ∃ ms, (s.moves ms).Plays (w.exec mark t).wall (w.listened t listened)
        ((w.exec mark t).tasks.map .task ++ chores ++
          (w.exec mark t).late.map fun i => .task (.poll i)) := by
    intro hcommit hflip hlistened
    have hdispose : w.dispose mark (.task t) =
        ⟨(w.exec mark t).wall, (w.exec mark t).tasks.map .task, (w.exec mark t).late⟩ := by
      cases t with
      | item i y => cases y with
        | remark r => rfl
        | flip f => exact absurd rfl (hflip i f)
      | _ => rfl
    have hplays := h.dispose hcommit (fun k hk => by cases hk) mark
    rwa [hdispose, ← hlistened] at hplays
  cases t with
  | perform op =>
    cases hw : w.commit? op with
    | some p => exact h.commit hw mark
    | none =>
      refine hwhole ?_ (fun i f hf => by cases hf) ?_
      · rw [commit?, h.wall_eq, hw]
        rfl
      · rw [Wall.listened_perform, hw]
        exact Bool.or_false listened
  | item i y =>
    cases y with
    | remark r => exact hwhole rfl (fun i f hf => by cases hf) (Bool.or_false listened)
    | flip f =>
      have hlistened : w.listened (.item i (.flip f)) listened = listened := Bool.or_false listened
      rw [hlistened]
      exact h.flip mark
  | _ => exact hwhole rfl (fun i f hf => by cases hf) (Bool.or_false listened)

/-- The reply to the host's own operation is noted when nothing else is left to do before it; a run
    goes on without it. -/
theorem Plays.reported {extra : List Chore}
    (h : s.Plays w listened (extra ++ chores))
    (hextra : extra = [] ∨ ∃ op reply, extra = [.task (.report op reply)]) :
    ∃ ms, (s.moves ms).Plays w listened chores := by
  rcases hextra with rfl | ⟨op, reply, rfl⟩
  · exact ⟨[], h⟩
  · obtain ⟨ms, hms⟩ := h.task 0
    have hlistened : w.listened (.report op reply) listened = listened := Bool.or_false listened
    rw [hlistened, Wall.exec, List.map_nil, List.map_nil, List.append_nil] at hms
    exact ⟨ms, hms⟩

/-- The host begins an operation when nobody has anything left to do. -/
theorem Plays.begin (h : s.Plays w listened []) (op : Op) :
    (s.moves [.begin 0 op]).Plays w listened [.task (.perform op)] := by
  obtain ⟨hwall, hlistened, hsettled, hchores, hhost⟩ := h
  cases hthreads : s.threads with
  | nil =>
    rw [hthreads] at hhost
    cases hhost
  | cons thread others =>
    rw [hthreads, List.flatten_cons, List.append_eq_nil_iff] at hchores
    obtain ⟨rfl, hothers⟩ := hchores
    have hmove : s.moves [.begin 0 op] =
        { s with threads := [.task (.perform op)] :: others } := by
      rw [moves, List.foldl_cons, List.foldl_nil, move, hthreads]
      rfl
    rw [hmove]
    refine ⟨hwall, hlistened, hsettled, ?_, Nat.succ_pos _⟩
    rw [List.flatten_cons, hothers]
    rfl

end Traffic

/-! ### Over a run -/

/-- A step that does a task leaves what the task causes, and then what was left already. -/
theorem Run.next_of_tasks_eq {r : Run} {t : Task} {ts : List Task} (h : r.tasks = t :: ts) :
    r.next.wall = (r.wall.exec r.events.length t).wall ∧
      r.next.tasks = (r.wall.exec r.events.length t).tasks ++ ts ∧
      r.next.late = r.late ++ (r.wall.exec r.events.length t).late := by
  have hnext : r.next = (r.does t).doing ((r.does t).tasks ++ ts) := by
    rw [← Run.next_doing_cons, ← h, Run.doing_self]
  by_cases hg : ∃ mark, t = .group mark
  · obtain ⟨mark, rfl⟩ := hg
    rw [hnext, Run.does_group]
    exact ⟨rfl, rfl, (List.append_nil _).symm⟩
  · rw [hnext, Run.does_eq _ fun mark hm => hg ⟨mark, hm⟩]
    exact ⟨rfl, rfl, rfl⟩

/-- At every step of whatever a new wall comes to, traffic with a single host has come about in
    which the same is left to do. -/
theorem Wall.Brings.exists_plays {outputs : List Output} {policy : Policy} {n : Noted Bool}
    (h : (Wall.create outputs policy).Brings Wall.listened false n) :
    ∃ ms extra, (extra = [] ∨ ∃ op reply, extra = [Chore.task (.report op reply)]) ∧
      ((Traffic.create outputs policy 1).moves ms).Plays n.run.wall n.notes
        (n.run.tasks.map .task ++ (extra ++ n.run.late.map fun i => .task (.poll i))) := by
  induction h with
  | start =>
    refine ⟨[], [], .inl rfl, rfl, rfl, fun v hv => ?_, rfl, Nat.one_pos⟩
    cases hv
  | @begins n _ hr op ih =>
    obtain ⟨ms, extra, hextra, hplays⟩ := ih
    rw [Run.isAtRest, Bool.and_eq_true, List.isEmpty_iff, List.isEmpty_iff] at hr
    rw [hr.1, hr.2, List.map_nil, List.nil_append] at hplays
    obtain ⟨ms₁, hrest⟩ := Traffic.Plays.reported hplays hextra
    obtain ⟨ms₂, htask⟩ := (hrest.begin op).task n.run.events.length
    have hrun : n.begins Wall.listened op =
        ⟨n.run.begin op, n.run.wall.listened (.perform op) n.notes⟩ := rfl
    rw [hrun]
    refine ⟨ms ++ ms₁ ++ [.begin 0 op] ++ ms₂, [.task (.report op (n.run.wall.begin
      n.run.events.length op).reply)], .inr ⟨op, _, rfl⟩, ?_⟩
    rw [Traffic.moves_append, Traffic.moves_append, Traffic.moves_append]
    rw [Wall.exec, List.map_append, List.append_nil, List.append_assoc] at htask
    rw [Run.begin, Run.incur, hr.2]
    exact htask
  | @next n _ hr ih =>
    obtain ⟨ms, extra, hextra, hplays⟩ := ih
    cases hts : n.run.tasks with
    | nil =>
      have hnext : n.next Wall.listened =
          ⟨{ n.run with tasks := n.run.late.map .poll, late := [] }, n.notes⟩ := by
        simp [Noted.next, Run.next, hts]
      rw [hts, List.map_nil, List.nil_append] at hplays
      obtain ⟨ms', hlate⟩ := Traffic.Plays.reported hplays hextra
      refine ⟨ms ++ ms', [], .inl rfl, ?_⟩
      rw [hnext, Traffic.moves_append, List.map_map, List.map_nil, List.append_nil, List.append_nil]
      exact hlate
    | cons t ts =>
      obtain ⟨hwall, htasks, hlate⟩ := Run.next_of_tasks_eq hts
      have hnotes : (n.next Wall.listened).notes = n.run.wall.listened t n.notes := by
        simp [Noted.next, hts]
      rw [hts, List.map_cons, List.cons_append] at hplays
      obtain ⟨ms', hms⟩ := hplays.task n.run.events.length
      refine ⟨ms ++ ms', extra, hextra, ?_⟩
      rw [hnotes, Noted.next, hwall, htasks, hlate, Traffic.moves_append, List.map_append,
        List.map_append]
      simpa only [List.append_assoc] using hms

/-- Whatever a new wall comes to by operations of its host, one after another, it comes to in
    traffic, too, where the host is the only one to begin anything; no call is on its way then, and
    none has come to an output out of order. -/
theorem Wall.Brings.exists_moves {outputs : List Output} {policy : Policy} {n : Noted Bool}
    (h : (Wall.create outputs policy).Brings Wall.listened false n) :
    ∃ ms, let s := (Traffic.create outputs policy 1).moves ms
      s.wall = n.run.wall ∧ s.listened = n.notes ∧ s.IsSettled := by
  obtain ⟨ms, _, -, hplays⟩ := h.exists_plays
  exact ⟨ms, hplays.wall_eq, hplays.listened_eq, hplays.settled⟩

end VideoWall
