import VideoWall.Proofs.Outline
import VideoWall.Proofs.Turns

/-! Frames that outputs refuse.

    Any output may refuse any frame, and whether it does is decided anew before each step:
    `Run.refusing`. What a run can come to in this way is `Run.ComesTo`. It always has the outline
    of what it comes to when nothing is decided anew (`Run.ComesTo.follows`), so two runs through
    the same operations offer the outputs the same layers and leave the same workers with the same
    layers, whatever was refused in either of them. -/

namespace VideoWall

/-! ### Refusals -/

/-- The output that refuses a frame, if an event is a call that is refused. -/
def Event.refused? : Event → Option Nat
  | .call i (.present _ _ failed) => if failed then some i else none
  | _ => none

theorem Event.eq_of_refused? {e : Event} {i : Nat} (h : e.refused? = some i) :
    ∃ layers upload, e = .call i (.present layers upload true) := by
  cases e with
  | call j c =>
    cases c with
    | present layers upload failed =>
      cases failed with
      | true => exact ⟨layers, upload, by rw [Option.some.inj h]⟩
      | false => cases h
    | _ => cases h
  | _ => cases h

namespace Wall

/-- From now on, every output refuses frames for its cause, or shows them if it has none. -/
def refusing (w : Wall) (causes : Nat → Option PresentError) : Wall :=
  { w with tiles := w.tiles.mapIdx fun i t =>
      { t with output := { t.output with failure := causes i } } }

/-- The workers of the tiles, from left to right, and the layers that they keep. -/
def roster (w : Wall) : List (Option (OutputId × List TileLayer)) :=
  w.staff.map (Option.map fun k => (k.id, k.retained))

/-- Tile by tile, the fences of the output that somebody holds, and the one that the worker
    holds. -/
def fences (w : Wall) : List (List Fence × Option (Option Fence)) :=
  w.tiles.map fun t => (t.output.live, t.worker.map (·.fence))

variable (w : Wall) (causes : Nat → Option PresentError)

theorem failure_refusing {i : Nat} {t : Tile} (h : (w.refusing causes).tiles[i]? = some t) :
    t.output.failure = causes i := by
  rw [refusing, List.getElem?_mapIdx, Option.map_eq_some_iff] at h
  obtain ⟨_, -, rfl⟩ := h
  rfl

/-- What the outputs refuse is read off the tiles in their failures and nowhere else. -/
theorem map_tiles_refusing {α : Type} {g : Tile → α}
    (h : ∀ t failure, g { t with output := { t.output with failure } } = g t) :
    (w.refusing causes).tiles.map g = w.tiles.map g := by
  refine List.ext_getElem? fun i => ?_
  rw [refusing, List.getElem?_map, List.getElem?_map, List.getElem?_mapIdx, Option.map_map]
  exact congrArg (Option.map · w.tiles[i]?) (funext fun t => h t (causes i))

theorem outline_refusing : (w.refusing causes).outline = w.outline := by
  rw [outline, outline, w.map_tiles_refusing causes fun _ _ => rfl]
  rfl

theorem staff_refusing : (w.refusing causes).staff = w.staff :=
  w.map_tiles_refusing causes fun _ _ => rfl

theorem fences_refusing : (w.refusing causes).fences = w.fences :=
  w.map_tiles_refusing causes fun _ _ => rfl

theorem roster_outline : w.outline.roster = w.roster := by
  rw [roster, roster, staff_outline, List.map_map]
  refine List.map_congr_left fun k _ => ?_
  rw [Function.comp_apply, Option.map_map]
  rfl

variable {w} in
theorem Serving.of_outline {v : Wall} (h : v.Serving) (ho : v.outline = w.outline) :
    w.Serving := by
  intro i k hk
  have hi : (v.staff.map (Option.map Worker.outline))[i]? = some (some k.outline) := by
    rw [← staff_outline, ho, staff_outline, List.getElem?_map, hk]
    rfl
  rw [List.getElem?_map, Option.map_eq_some_iff] at hi
  obtain ⟨_, hi, hmap⟩ := hi
  obtain ⟨k', rfl, heq⟩ := Option.map_eq_some_iff.1 hmap
  have hexited : k'.outline.exited = k.outline.exited := congrArg Worker.exited heq
  exact hexited.symm.trans (h i k' hi)

end Wall

namespace Run

/-- From now on, every output refuses frames for its cause, or shows them if it has none. -/
def refusing (r : Run) (causes : Nat → Option PresentError) : Run :=
  { r with wall := r.wall.refusing causes }

theorem outline_refusing (r : Run) (causes : Nat → Option PresentError) :
    (r.refusing causes).outline = r.outline := by
  rw [outline, outline, refusing, Wall.outline_refusing]

/-- What a run can come to, `n` steps into the latest of some operations, when it is decided anew
    before each step what the outputs refuse. No output calls back while it shows a frame. The
    latest operation comes first. -/
inductive ComesTo (start : Run) : List Op → Nat → Run → Prop where
  | start : ComesTo start [] 0 start
  | begins {ops : List Op} {n : Nat} {r : Run} (h : ComesTo start ops n r)
      (hr : r.isAtRest = true) (causes : Nat → Option PresentError) (op : Op) :
      ComesTo start (op :: ops) 0 ((r.refusing causes).begin op)
  | next {ops : List Op} {n : Nat} {r : Run} (h : ComesTo start ops n r) (hr : r.isAtRest = false)
      (hu : r.wall.Uncalled) (causes : Nat → Option PresentError) :
      ComesTo start ops (n + 1) (r.refusing causes).next

/-- Takes steps until nothing is left to do, at most `fuel` of them, with the same refusals before
    each. -/
def refused (causes : Nat → Option PresentError) : Nat → Run → Run
  | 0, r => r
  | fuel + 1, r => if r.isAtRest then r else refused causes fuel (r.refusing causes).next

theorem ComesTo.refused {start r : Run} {ops : List Op} {n fuel : Nat}
    {causes : Nat → Option PresentError} (h : start.ComesTo ops n r)
    (hu : ∀ m < fuel, (Run.refused causes m r).wall.Uncalled) :
    ∃ n', start.ComesTo ops n' (Run.refused causes fuel r) := by
  induction fuel generalizing r n with
  | zero => exact ⟨n, h⟩
  | succ fuel ih =>
    rw [Run.refused]
    split
    · exact ⟨n, h⟩
    · next hr =>
      refine ih (h.next (Bool.eq_false_iff.2 hr) (hu 0 (Nat.succ_pos _)) causes) fun m hm => ?_
      have hm' := hu (m + 1) (Nat.succ_lt_succ hm)
      rwa [Run.refused, if_neg hr] at hm'

/-- What the run comes to, `n` steps into the latest of some operations, when nothing is decided
    anew. -/
def course (start : Run) (ops : List Op) : Nat → Run
  | 0 => ops.foldr (fun op r => r.settled.begin op) start
  | n + 1 => (start.course ops n).next

/-- Whatever is refused, the run has the outline of the one in which nothing is decided anew. -/
theorem ComesTo.follows {t : Tracked} (ht : Reached t) {ops : List Op} {n : Nat} {s : Run}
    (h : t.run.ComesTo ops n s) :
    ∃ u, Reached u ∧ u.run = t.run.course ops n ∧ u.run.outline = s.outline ∧
      u.run.settled = (t.run.course ops 0).settled := by
  induction h with
  | start => exact ⟨t, ht, rfl, rfl, rfl⟩
  | @begins ops n r _ hrest causes op ih =>
    -- whether a run is at rest is part of its outline, so the other one is at rest, too
    obtain ⟨u, hu, -, houtline, hsettled⟩ := ih
    have hur : u.run.isAtRest = true := by
      rw [← isAtRest_outline, houtline, isAtRest_outline, hrest]
    have hbegin : (u.begins op).run = t.run.course (op :: ops) 0 := by
      rw [settled_of_isAtRest hur] at hsettled
      rw [Tracked.begins, hsettled]
      rfl
    refine ⟨u.begins op, hu.begins hur op, hbegin, ?_, congrArg settled hbegin⟩
    rw [Tracked.begins, outline_begin, houtline, ← r.outline_refusing causes, ← outline_begin]
  | @next ops n r _ hrest hun causes ih =>
    obtain ⟨u, hu, hcourse, houtline, hsettled⟩ := ih
    have hur : u.run.isAtRest = false := by
      rw [← isAtRest_outline, houtline, isAtRest_outline, hrest]
    have huncalled : ∀ v : Run, v.outline = r.outline → v.wall.Uncalled := fun v hv =>
      hun.of_outline (congrArg Run.wall hv)
    refine ⟨u.next, hu.next hur, ?_, ?_, ?_⟩
    · rw [course, ← hcourse]
      rfl
    · rw [Tracked.next, outline_next (huncalled _ houtline),
        outline_next (huncalled _ (r.outline_refusing causes)), outline_refusing, houtline]
    · rw [← hsettled]
      exact settled_next hur

end Run

/-! ### Refused frames -/

namespace Worker

variable {k : Worker} {o : Output} {job : Job} {layers layers' : List TileLayer}
  {upload upload' : Bool}

/-- A worker whose output refuses the frame keeps the layers, and that is all. -/
theorem compose_of_refused
    (h : (k.compose o job).2.2.call? layers upload = some (.present layers' upload' true)) :
    ∃ cause, o.failure = some cause ∧ k.compose o job =
      ({ k with retained := job.window.assign job.layers }, o, .refused cause) := by
  rw [compose] at h ⊢
  dsimp only at h ⊢
  split at h
  · cases h
  · next hne =>
    rw [if_neg hne]
    rcases hp : o.present with ⟨o', cause | fence⟩
    · rw [Output.present] at hp
      split at hp
      · next hfailure =>
        cases hp
        exact ⟨cause, hfailure, rfl⟩
      · split at hp <;> cases hp
    · rw [hp] at h
      cases h

end Worker

namespace Wall

variable {w : Wall} {mark : Nat} {task : Task} {i : Nat} {layers : List TileLayer} {upload : Bool}

/-- Nothing but a worker that handles a job offers anything to an output. -/
theorem offer?_of_mem_exec (h : ∀ i, task ≠ .work i) {x : Event}
    (hx : x ∈ (w.exec mark task).events) : x.offer? = none := by
  cases task with
  | perform op =>
    cases hb : w.beginsFrame op with
    | false => exact (plain_begin mark hb).events x hx
    | true =>
      obtain ⟨layers, upload, c, rfl, hh, hc, hp⟩ := exists_of_beginsFrame hb
      have hnil : (w.begin mark (.present layers upload)).events = [] := by
        rw [begin_present hh hc hp]
      rw [show (w.exec mark (.perform (.present layers upload))).events = _ from hnil] at hx
      cases hx
  | dispatch i job =>
    rw [exec] at hx
    rcases w.dispatch_cases i job with ⟨log, he, -⟩ | ⟨k, -, -, he⟩ <;> rw [he] at hx <;> cases hx
  | work i => exact absurd rfl (h i)
  | finish | await | endFrame | group => cases hx
  | report | deliver | leave | arrive | poll | item | arm =>
    exact (plain_exec mark rfl (by simp)).events x hx

/-- A refused call is made by a worker that handles a job. Its output is set to refuse it, the
    worker keeps the layers that it offered and nothing else, one line is logged, and the job ends
    next. -/
theorem exec_of_refused
    (h : Event.call i (.present layers upload true) ∈ (w.exec mark task).events) :
    task = .work i ∧ ∃ t k k' cause, w.tiles[i]? = some t ∧ t.worker = some k ∧
      t.output.failure = some cause ∧ k'.id = k.id ∧ k'.fence = k.fence ∧
      (w.exec mark task).wall = w.setTile i (fun _ => { t with worker := some k' }) ∧
      (w.exec mark task).log = [cause.line k.id] ∧
      (w.exec mark task).tasks = [.finish i upload (.refused cause)] := by
  by_cases hw : ∃ j, task = .work j
  · obtain ⟨j, rfl⟩ := hw
    rw [exec, work] at h ⊢
    cases ht : w.tiles[j]? with
    | none => rw [ht] at h; cases h
    | some t =>
      rw [ht] at h
      dsimp only at h ⊢
      cases hk : t.worker.bind Worker.take? with
      | none => rw [hk] at h; cases h
      | some taken =>
        obtain ⟨job, k₀⟩ := taken
        obtain ⟨k, hworker, htake⟩ := Option.bind_eq_some_iff.1 hk
        obtain ⟨-, htaken⟩ := Worker.take?_eq_some htake
        rw [hk] at h
        dsimp only at h ⊢
        rw [Option.mem_toList, Option.map_eq_some_iff] at h
        obtain ⟨call, hcall, heq⟩ := h
        cases heq
        obtain ⟨cause, hfailure, hcompose⟩ := Worker.compose_of_refused hcall
        rw [hcompose] at hcall ⊢
        cases hcall
        rw [htaken]
        exact ⟨rfl, t, k,
          { k with queue := k₀.queue, retained := job.window.assign job.layers }, cause, ht,
          hworker, hfailure, rfl, rfl, rfl, rfl, rfl⟩
  · cases offer?_of_mem_exec (fun j hj => hw ⟨j, hj⟩) h

end Wall

namespace Run

variable {r : Run}

/-- A refused call is logged and leaves all fences as they are; the job ends next. -/
theorem next_of_refused {task : Task} {rest : List Task} {i : Nat} {layers : List TileLayer}
    {upload : Bool} (htasks : r.tasks = task :: rest)
    (h : Event.call i (.present layers upload true) ∈ (r.wall.exec r.events.length task).events) :
    task = .work i ∧ ∃ t k k' cause, r.wall.tiles[i]? = some t ∧ t.worker = some k ∧
      t.output.failure = some cause ∧ r.next.log = r.log ++ [cause.line k.id] ∧
      r.next.wall.fences = r.wall.fences ∧ r.next.wall.staff[i]? = some (some k') ∧ k'.id = k.id ∧
      r.next.tasks = .finish i upload (.refused cause) :: rest := by
  obtain ⟨htask, t, k, k', cause, ht, hk, hfailure, hid, hfence, hwall, hlog, hleft⟩ :=
    Wall.exec_of_refused h
  rw [← wall_next_of_cons htasks] at hwall
  refine ⟨htask, t, k, k', cause, ht, hk, hfailure, ?_, ?_, ?_, hid, ?_⟩
  · rw [log_next_of_cons htasks, hlog]
  · rw [hwall]
    refine Wall.map_modify_of_eq fun u hu => ?_
    rw [Option.some.inj (hu.symm.trans ht), hk, Option.map_some, Option.map_some, hfence]
  · rw [hwall, Wall.staff, Wall.setTile, List.getElem?_map, List.getElem?_modify_eq, ht]
    rfl
  · rw [tasks_next_of_cons htasks, hleft]
    rfl

/-- The end of a refused job is not logged and leaves all fences as they are, too. -/
theorem next_of_finish_refused {rest : List Task} {i : Nat} {upload : Bool} {cause : PresentError}
    {k : Worker} (htasks : r.tasks = .finish i upload (.refused cause) :: rest)
    (hk : r.wall.staff[i]? = some (some k)) :
    r.next.log = r.log ∧ r.next.wall.fences = r.wall.fences ∧
      ∃ k', r.next.wall.staff[i]? = some (some k') ∧ k'.id = k.id := by
  obtain ⟨t, ht, hworker⟩ := Wall.exists_tile_of_staff hk
  have hfinish : t.finish (.refused cause) =
      { t with worker := some { k with signal := k.signal.raise } } := by
    obtain ⟨o, _, script⟩ := t
    cases hworker
    rfl
  have hwall := wall_next_of_cons htasks
  refine ⟨?_, ?_, { k with signal := k.signal.raise }, ?_, rfl⟩
  · rw [log_next_of_cons htasks]
    exact List.append_nil _
  · rw [hwall]
    refine Wall.map_modify_of_eq fun u hu => ?_
    rw [Option.some.inj (hu.symm.trans ht), hfinish, hworker]
    rfl
  · rw [hwall, Wall.exec, Wall.finish, Wall.staff, Wall.setTile, List.getElem?_map,
      List.getElem?_modify_eq, ht]
    exact congrArg (fun u : Tile => some u.worker) hfinish

end Run

/-- Outputs may refuse any frames, whatever a wall has come to: as long as no output calls back
    while it shows a frame, refusals make no difference to anything else. Two runs through the same
    operations have offered the outputs the same layers in the same order and have the same workers
    with the same layers, step by step and whenever they come to rest, even if the outputs refuse
    some frames in the one and others in the other. A refused call is logged in one line, and it
    leaves all fences as they were until the job has ended. No worker is ever lost to refusals:
    those that are there take any job. -/
theorem Reached.refusals_isolated {t : Tracked} (h : Reached t) :
    (∀ ops n n' s s', t.run.ComesTo ops n s → t.run.ComesTo ops n' s' →
      n = n' ∨ s.isAtRest = true ∧ s'.isAtRest = true →
      Event.offers s.events = Event.offers s'.events ∧ s.wall.roster = s'.wall.roster) ∧
    ∀ ops n s, t.run.ComesTo ops n s →
      (∀ causes task rest e i, s.tasks = task :: rest →
        let r := s.refusing causes
        e ∈ (r.wall.exec r.events.length task).events → e.refused? = some i →
        task = .work i ∧ ∃ k cause, s.wall.staff[i]? = some (some k) ∧ causes i = some cause ∧
          r.next.log = s.log ++ [cause.line k.id] ∧ r.next.wall.fences = s.wall.fences ∧
          ∀ causes', let u := (r.next.refusing causes').next
            u.log = r.next.log ∧ u.wall.fences = s.wall.fences ∧
            ∃ k', u.wall.staff[i]? = some (some k') ∧ k'.id = k.id) ∧
      ∀ (i : Nat) (k : Worker), s.wall.staff[i]? = some (some k) →
        ∀ job, ∃ k', k.present job = .ok k' := by
  refine ⟨fun ops n n' s s' hs hs' hn => ?_, fun ops n s hs => ⟨?_, ?_⟩⟩
  · obtain ⟨u, -, hu, houtline, hsettled⟩ := hs.follows h
    obtain ⟨u', -, hu', houtline', hsettled'⟩ := hs'.follows h
    have heq : u.run = u'.run := by
      rcases hn with rfl | ⟨hr, hr'⟩
      · rw [hu, hu']
      · rw [← Run.isAtRest_outline, ← houtline, Run.isAtRest_outline] at hr
        rw [← Run.isAtRest_outline, ← houtline', Run.isAtRest_outline] at hr'
        rw [← Run.settled_of_isAtRest hr, hsettled, ← hsettled', Run.settled_of_isAtRest hr']
    rw [heq, houtline'] at houtline
    have hevents : s'.events.map Event.outline = s.events.map Event.outline :=
      congrArg Run.events houtline
    have hwall : s'.wall.outline = s.wall.outline := congrArg Run.wall houtline
    rw [← Event.offers_outline, ← hevents, Event.offers_outline, ← Wall.roster_outline, ← hwall,
      Wall.roster_outline]
    exact ⟨rfl, rfl⟩
  · intro causes task rest e i htasks r he hrefused
    obtain ⟨layers, upload, rfl⟩ := Event.eq_of_refused? hrefused
    obtain ⟨htask, tile, k, k', cause, htile, hworker, hfailure, hlog, hfences, hk', hid, hleft⟩ :=
      Run.next_of_refused (r := r) htasks he
    have hstaff : r.wall.staff[i]? = some (some k) := by
      rw [Wall.staff, List.getElem?_map, htile, Option.map_some, hworker]
    have hcause := (s.wall.failure_refusing causes htile).symm.trans hfailure
    rw [show r.wall = s.wall.refusing causes from rfl, Wall.fences_refusing] at hfences
    refine ⟨htask, k, cause, ?_, hcause, hlog, hfences, fun causes' => ?_⟩
    · rw [← s.wall.staff_refusing causes]
      exact hstaff
    · have hfinish := Run.next_of_finish_refused (r := r.next.refusing causes') hleft
        ((congrArg (·[i]?) (r.next.wall.staff_refusing causes')).trans hk')
      obtain ⟨hlog', hfences', k'', hk'', hid'⟩ := hfinish
      refine ⟨hlog', hfences'.trans ?_, k'', hk'', hid'.trans hid⟩
      exact (r.next.wall.fences_refusing causes').trans hfences
  · intro i k hk job
    obtain ⟨u, hu, -, houtline, -⟩ := hs.follows h
    have hserving := hu.orderly.serving.of_outline (congrArg Run.wall houtline)
    refine ⟨_, if_neg ?_⟩
    rw [hserving i k hk]
    exact Bool.false_ne_true

/-- Two outputs that hand out fences have shown a frame that covers them both. -/
def paired : Tracked :=
  let output : Output := { configs := [⟨100, 10, none, none, none⟩], fences := true }
  let everywhere : Frame := ⟨⟨0⟩, ⟨0⟩, ⟨0x7ff0000000000000⟩, ⟨0⟩⟩
  [.setPowerMode .on, .present [⟨⟨1⟩, everywhere, none⟩] true].foldl Tracked.perform
    { run := (Wall.create [output, output] {}).resting }

/-- The left output refuses the next frame, or shows it, and then both are to show one that only
    the left one can see. Either way the outputs are offered the same; where the frame was refused,
    the left worker has kept its fence until then. -/
theorem refusals_isolated_paired :
    let ten : Coordinate := ⟨0x4024000000000000⟩
    let everywhere : Frame := ⟨⟨0⟩, ⟨0⟩, ⟨0x7ff0000000000000⟩, ⟨0⟩⟩
    let both : Op := .present [⟨⟨2⟩, everywhere, none⟩] true
    let left : Op := .present [⟨⟨3⟩, ⟨ten, ten, ten, ten⟩, none⟩] true
    let shows : Nat → Option PresentError := fun _ => none
    let refuses : Nat → Option PresentError := fun i => if i = 0 then some .io else none
    let begun (causes : Nat → Option PresentError) := (paired.run.refusing causes).begin both
    let run (causes : Nat → Option PresentError) :=
      ((((begun causes).refused causes 20).refusing shows).begin left).refused shows 20
    let s := run refuses
    let s' := run shows
    let v := (begun refuses).refused refuses 1
    let u := (v.refusing refuses).next
    Reached paired ∧ s.isAtRest = true ∧ s'.isAtRest = true ∧
      s.log = [PresentError.io.line ⟨0⟩] ∧ s'.log = [] ∧
      (Event.offers s.events).map (·.output) = [0, 1, 0, 1, 0] ∧
      Event.offers s.events = Event.offers s'.events ∧ s.wall.roster = s'.wall.roster ∧
      v.wall.fences = [([⟨0⟩], some (some ⟨0⟩)), ([⟨0⟩], some (some ⟨0⟩))] ∧
      (∃ k, v.wall.staff[0]? = some (some k) ∧ u.log = v.log ++ [PresentError.io.line k.id] ∧
        (u.refusing shows).next.wall.fences = v.wall.fences) ∧
      ∃ k k', s.wall.staff[1]? = some (some k) ∧
        k.present ⟨⟨2, 1, 0, 0, 0, 0⟩, [], true⟩ = .ok k' := by
  intro ten everywhere both left shows refuses begun run s s' v u
  have hreached : Reached paired := by
    refine ((Reached.create _ _).perform rfl _).perform ?_ _
    decide +kernel
  have hrest : paired.run.isAtRest = true := by decide +kernel
  have hcomes (causes : Nat → Option PresentError)
      (hboth : ∀ m < 20, ((begun causes).refused causes m).wall.Uncalled)
      (hr : ((begun causes).refused causes 20).isAtRest = true)
      (hleft : ∀ m < 20, (((((begun causes).refused causes 20).refusing shows).begin left).refused
        shows m).wall.Uncalled) : ∃ n, paired.run.ComesTo [left, both] n (run causes) := by
    obtain ⟨n, hn⟩ := (Run.ComesTo.start.begins hrest causes both).refused hboth
    exact (hn.begins hr shows left).refused hleft
  obtain ⟨n, hs⟩ := hcomes refuses (by decide +kernel) (by decide +kernel) (by decide +kernel)
  obtain ⟨n', hs'⟩ := hcomes shows (by decide +kernel) (by decide +kernel) (by decide +kernel)
  have hbegun : ∃ m, paired.run.ComesTo [both] m ((begun refuses).refused refuses 1) :=
    (Run.ComesTo.start.begins hrest refuses both).refused (by decide +kernel)
  obtain ⟨m, hv⟩ := hbegun
  obtain ⟨hsame, hrefusals⟩ := hreached.refusals_isolated
  have hsr : s.isAtRest = true := by decide +kernel
  have hsr' : s'.isAtRest = true := by decide +kernel
  obtain ⟨hoffers, hroster⟩ := hsame _ _ _ _ _ hs hs' (.inr ⟨hsr, hsr'⟩)
  have hcall : (v.tasks.head?.any fun task =>
      ((v.refusing refuses).wall.exec (v.refusing refuses).events.length task).events.any
        (·.refused? == some 0)) = true := by
    decide +kernel
  obtain ⟨task, hhead, hany⟩ := (Option.any_eq_true _ _).1 hcall
  obtain ⟨rest, htasks⟩ := List.head?_eq_some_iff.1 hhead
  obtain ⟨e, he, hrefused⟩ := List.any_eq_true.1 hany
  obtain ⟨hcalls, -⟩ := hrefusals _ _ v hv
  obtain ⟨-, hserving⟩ := hrefusals _ _ s hs
  have hworker : s.wall.staff[1]?.join.isSome = true := by decide +kernel
  obtain ⟨k', hk'⟩ := Option.isSome_iff_exists.1 hworker
  have hpresent := hserving 1 k' (Option.join_eq_some_iff.1 hk') ⟨⟨2, 1, 0, 0, 0, 0⟩, [], true⟩
  obtain ⟨-, k, cause, hk, hcause, hlog, -, hend⟩ :=
    hcalls refuses task rest e 0 htasks he (beq_iff_eq.1 hrefused)
  cases hcause
  exact ⟨hreached, hsr, hsr', by decide +kernel, by decide +kernel, by decide +kernel, hoffers,
    hroster, by decide +kernel, ⟨k, hk, hlog, (hend shows).2.1⟩, k', hpresent.choose,
    Option.join_eq_some_iff.1 hk', hpresent.choose_spec⟩

end VideoWall
