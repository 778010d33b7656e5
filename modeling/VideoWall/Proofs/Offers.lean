import VideoWall.Proofs.Ordinary
import VideoWall.Proofs.Turns

/-! What a frame offers to the outputs.

    As a frame begins, the workers are matched with the connected outputs, windows are laid out for
    all of them, and the policy says which of them get the frame. From then on the list of offers is
    settled, `Wall.submissions`: whatever scripts do while the frame is being presented, each worker
    handles the job that it was handed. `Reached.present_offers` states it for both pipelines. -/

namespace VideoWall

/-! ### The list of offers -/

namespace Wall

/-- The tiles that have a worker, from left to right, each with its window: these are side by side,
    as wide as the outputs are, and count all the workers. -/
def placed (w : Wall) : List (Nat × Window) :=
  (w.staffed.map (·.1)).zip (Window.layoutFrom w.staffed.length 0 0 (w.staffed.map (·.2)))

/-- The tiles that get the frame. -/
def kept (w : Wall) : Dispatch → List (Nat × Window)
  | .allTiles => w.placed
  | .firstTileOnly => w.placed.take 1

/-- What the outputs are offered for a frame, in order. -/
def submissions (w : Wall) (d : Dispatch) (layers : List Layer) (upload : Bool) : List Offer :=
  (w.kept d).filterMap fun p => p.2.offer? p.1 layers upload

variable (w : Wall)

/-- Tiles come from left to right. -/
theorem pairwise_staffed : w.staffed.Pairwise fun a b => a.1 < b.1 := by
  have hidx : (w.tiles.zipIdx.map Prod.snd).Pairwise (· < ·) := by
    rw [List.zipIdx_map_snd]
    exact List.pairwise_lt_range' 1
  refine List.pairwise_filterMap.2 ((List.pairwise_map.1 hidx).imp ?_)
  rintro ⟨t, i⟩ ⟨t', i'⟩ hlt p hp p' hp'
  dsimp only at hlt hp hp'
  split at hp
  · split at hp'
    · cases hp
      cases hp'
      exact hlt
    · cases hp'
  · cases hp

theorem map_placed : w.placed.map (·.1) = w.staffed.map (·.1) := by
  refine List.map_fst_zip ?_
  simp [Window.length_layoutFrom]

theorem pairwise_placed : w.placed.Pairwise fun a b => a.1 < b.1 := by
  have hfst : (w.placed.map (·.1)).Pairwise (· < ·) := by
    rw [map_placed]
    exact List.pairwise_map.2 w.pairwise_staffed
  exact List.pairwise_map.1 hfst

theorem kept_sublist (d : Dispatch) : (w.kept d).Sublist w.placed := by
  cases d with
  | allTiles => exact List.Sublist.refl _
  | firstTileOnly => exact List.take_sublist 1 _

theorem pairwise_kept (d : Dispatch) : (w.kept d).Pairwise fun a b => a.1 < b.1 :=
  w.pairwise_placed.sublist (w.kept_sublist d)

variable {w}

theorem exists_worker_of_mem_staffed {q : Nat × Footprint} (h : q ∈ w.staffed) :
    ∃ k, w.staff[q.1]? = some (some k) := by
  obtain ⟨⟨t, i⟩, ht, hsome⟩ := List.mem_filterMap.1 h
  dsimp only at hsome
  split at hsome
  · next hw =>
    cases hsome
    obtain ⟨k, hk⟩ := Option.isSome_iff_exists.1 hw
    have hget := List.mk_mem_zipIdx_iff_getElem?.1 ht
    exact ⟨k, by simp [staff, hget, hk]⟩
  · cases hsome

/-- A tile that gets the frame has a worker. -/
theorem exists_worker_of_mem_kept {d : Dispatch} {p : Nat × Window} (h : p ∈ w.kept d) :
    ∃ k, w.staff[p.1]? = some (some k) := by
  have hmem : p.1 ∈ w.staffed.map (·.1) :=
    w.map_placed ▸ List.mem_map_of_mem ((w.kept_sublist d).subset h)
  obtain ⟨q, hq, hi⟩ := List.mem_map.1 hmem
  exact hi ▸ exists_worker_of_mem_staffed hq

/-- The jobs that are handed out are those of the tiles that get the frame. -/
theorem jobs_eq (h : w.staffed.length ≤ Limits.maxCount) (layers : List Layer) (upload : Bool) :
    w.jobs layers upload =
      (w.kept w.policy.dispatch).map fun p => (p.1, ⟨p.2, layers, upload⟩) := by
  have hplaced : w.placed =
      (w.staffed.zip (Window.layout (w.staffed.map (·.2)))).map fun p => (p.1.1, p.2) := by
    rw [placed, List.zip_map_left, Window.layout, List.length_map, Limits.count_of_le h]
    rfl
  have hlen : (w.staffed.zip (Window.layout (w.staffed.map (·.2)))).length = w.staffed.length := by
    simp [Window.length_layout]
  rw [jobs, Policy.tilesPerFrame]
  dsimp only
  cases w.policy.dispatch with
  | allTiles =>
    rw [kept, hplaced, ← hlen, List.take_length, List.map_map]
    rfl
  | firstTileOnly =>
    have htake := List.take_take (i := 1) (j := w.staffed.length)
      (l := w.staffed.zip (Window.layout (w.staffed.map (·.2))))
    rw [List.take_of_length_le (Nat.le_of_eq hlen)] at htake
    dsimp only
    rw [kept, hplaced, Nat.min_comm, ← htake, ← List.map_take, List.map_map]
    rfl

theorem length_staffed_le (w : Wall) : w.staffed.length ≤ w.tiles.length := by
  have h : w.staffed.length ≤ w.tiles.zipIdx.length := List.length_filterMap_le _ _
  rwa [List.length_zipIdx] at h

/-- Offers come from left to right. -/
theorem pairwise_submissions (d : Dispatch) (layers : List Layer) (upload : Bool) :
    (w.submissions d layers upload).Pairwise fun a b => a.output < b.output := by
  refine List.pairwise_filterMap.2 ((w.pairwise_kept d).imp ?_)
  intro p q hlt o ho o' ho'
  rw [Window.output_of_offer? ho, Window.output_of_offer? ho']
  exact hlt

/-- The first tile is offered the same whether it is the only one or not. -/
theorem submissions_firstTileOnly (layers : List Layer) (upload : Bool) :
    w.submissions .firstTileOnly layers upload =
      (w.submissions .allTiles layers upload).filter fun o =>
        w.placed.head?.any (·.1 == o.output) := by
  rw [submissions, submissions, kept, kept]
  have hlt := w.pairwise_placed
  generalize w.placed = ps at hlt
  cases ps with
  | nil => rfl
  | cons p ps =>
    rw [List.pairwise_cons] at hlt
    have hrest : (ps.filterMap fun p => p.2.offer? p.1 layers upload).filter
        (fun o => p.1 == o.output) = [] := by
      refine List.filter_eq_nil_iff.2 fun o ho h => ?_
      obtain ⟨q, hq, ho⟩ := List.mem_filterMap.1 ho
      rw [beq_iff_eq, Window.output_of_offer? ho] at h
      exact Nat.ne_of_lt (hlt.1 q hq) h
    cases ho : p.2.offer? p.1 layers upload with
    | none => simp [ho, hrest]
    | some o => simp [ho, hrest, Window.output_of_offer? ho]

end Wall

/-! ### Frames -/

theorem Event.output?_of_offer? {e : Event} {o : Offer} (h : e.offer? = some o) :
    e.output? = some o.output := by
  cases e with
  | call i c =>
    cases c <;> cases h
    rfl
  | _ => cases h

/-- Offers that come from left to right stay as they are when events are grouped by output. -/
theorem Event.offers_grouped {es : List Event}
    (h : (offers es).Pairwise fun a b => a.output < b.output) :
    offers (grouped es) = offers es := by
  refine Event.filterMap_grouped ((List.pairwise_filterMap.1 h).imp ?_)
  intro a b hlt ha hb
  obtain ⟨o, ho⟩ := Option.isSome_iff_exists.1 ha
  obtain ⟨o', ho'⟩ := Option.isSome_iff_exists.1 hb
  have := hlt o ho o' ho'
  rw [before, output?_of_offer? ho, output?_of_offer? ho']
  exact decide_eq_true (by omega)

namespace Run

variable {r s : Run} {jobs : List (Nat × Job)} {R : Job → Worker → Worker → Prop} {os : List Offer}

/-- Grouping the events by output does not reorder offers that come from left to right. -/
theorem Turns.group (h : Turns jobs R os r s)
    (hos : os.Pairwise fun a b => a.output < b.output) :
    Turns jobs R os r (s.after [.group r.events.length]) := by
  obtain ⟨es, he, rfl⟩ := h.offers
  rw [after_cons, does_group, he, List.take_left, List.drop_left, List.append_nil, after_nil]
  exact ⟨h.presenting_eq, ⟨Event.grouped es, rfl, Event.offers_grouped hos⟩, h.others, h.each⟩

variable {c : Controller}

/-- A frame begins: the workers are matched with the outputs, and what is left to do is to have the
    jobs handled, to group the events or not, and to end the frame. -/
theorem begin_present (hh : r.wall.held = true) (hc : r.wall.controller = some c)
    (hp : c.power.isOn = true) (layers : List Layer) (upload : Bool) :
    let b := r.begin (.present layers upload)
    b.wall = { r.wall.reconcile c with presenting := r.wall.presenting + 1 } ∧
      b.events = r.events ∧
      ∃ us, (us = [] ∨ us = [.group r.events.length]) ∧
        b.tasks = Wall.schedule r.wall.policy.pipeline ((r.wall.reconcile c).jobs layers upload) ++
          us ++ [.endFrame] := by
  rw [begin, Wall.begin_present hh hc hp]
  refine ⟨rfl, List.append_nil _, ?_⟩
  cases r.wall.policy.pipeline with
  | sequential => exact ⟨[], .inl rfl, rfl⟩
  | barrier => exact ⟨[.group r.events.length], .inr rfl, rfl⟩

/-- Up to its end, a frame gives every tile that gets it its turn. -/
theorem exists_turns_present (hh : r.wall.held = true) (hc : r.wall.controller = some c)
    (hp : c.power.isOn = true) (hn : r.wall.tiles.length < Limits.maxCount)
    (hidle : ∀ (i : Nat) (k : Worker), (r.wall.reconcile c).staff[i]? = some (some k) → k.Idle)
    (layers : List Layer) (upload : Bool)
    (hu : ∀ s ∈ r.calling (.present layers upload), s.beginsFrame = false) :
    let v := r.wall.reconcile c
    ∃ u ∈ r.calling (.present layers upload), u.tasks = [.endFrame] ∧
      r.call (.present layers upload) = u.after [.endFrame] ∧
      Turns ((v.kept v.policy.dispatch).map fun p => (p.1, ⟨p.2, layers, upload⟩))
        (fun job k k' => k.Handles job k') (v.submissions v.policy.dispatch layers upload)
        (r.begin (.present layers upload)) u := by
  intro v
  obtain ⟨hwall, hevents, us, hus, htasks⟩ := begin_present hh hc hp layers upload
  have hlen : v.staffed.length ≤ Limits.maxCount := by
    have hlen : v.staffed.length ≤ r.wall.tiles.length :=
      r.wall.length_reconcile c ▸ v.length_staffed_le
    omega
  rw [Wall.jobs_eq hlen] at htasks
  rw [calling, htasks] at hu
  rw [calling, call, htasks]
  generalize r.begin (.present layers upload) = b at *
  obtain ⟨hu, -⟩ := Undisturbed.of_append hu
  obtain ⟨hu, -⟩ := hu.of_append
  have hd : (((v.kept v.policy.dispatch).map fun p => (p.1, (⟨p.2, layers, upload⟩ : Job))).map
      (·.1)).Nodup := by
    rw [List.map_map, List.Nodup, List.pairwise_map]
    exact (v.pairwise_kept _).imp Nat.ne_of_lt
  have hturns := stage_schedule r.wall.policy.pipeline hd b ?_ hu ?_
  · rw [List.filterMap_map] at hturns
    refine ⟨_, (mem_during_append ..).2 (.inr (doing_mem_during _ _)), rfl, after_append .., ?_⟩
    rw [after_append]
    rcases hus with rfl | rfl
    · rw [after_nil]
      exact (hturns.doing []).doing _
    · rw [← hevents]
      exact (hturns.group (v.pairwise_submissions _ _ _)).doing _
  · rw [hwall]
    exact Nat.succ_pos _
  · intro j hj
    obtain ⟨p, hp, rfl⟩ := List.mem_map.1 hj
    obtain ⟨k, hk⟩ := Wall.exists_worker_of_mem_kept hp
    exact ⟨k, by rw [hwall]; exact hk, hidle _ k hk⟩

end Run

/-- In whatever state a fully powered wall of fewer than 2^32 - 1 outputs is when its holder
    presents a frame, as long as no other frame is in progress and none begins before this one ends:
    the outputs are offered what `Wall.submissions` lists, in this order and nothing else, under
    either pipeline. The list is about the wall as it is when the frame begins, with its workers
    matched to the outputs; whatever scripts do in the meantime to connections, power, the places of
    outputs or the controller itself makes no difference. When the frame comes to its end, every
    worker that got it keeps the layers of its window; one whose window accepts none has no layers
    and still its release fence. All other workers are as they were, and unless the controller goes
    with the frame, that is how they stay. If only the first tile gets the frame, it is offered what
    it would be offered if all did. -/
theorem Reached.present_offers {t : Tracked} (h : Reached t) {c : Controller}
    (hh : t.run.wall.held = true) (hc : t.run.wall.controller = some c)
    (hp : c.power.isOn = true) (hn : t.run.wall.tiles.length < Limits.maxCount)
    (hf : t.run.wall.presenting = 0) (layers : List Layer) (upload : Bool)
    (hu : ∀ s ∈ t.run.calling (.present layers upload), s.beginsFrame = false) :
    let r := t.run
    let v := r.wall.reconcile c
    let s := r.call (.present layers upload)
    (∃ es, s.events = r.events ++ es ∧
      Event.offers es = v.submissions v.policy.dispatch layers upload) ∧
    (∃ u ∈ r.calling (.present layers upload), u.tasks = [.endFrame] ∧
      (∀ p ∈ v.kept v.policy.dispatch, ∃ k k', v.staff[p.1]? = some (some k) ∧
        u.wall.staff[p.1]? = some (some k') ∧ k'.retained = p.2.assign layers ∧
        ((∀ l ∈ layers, p.2.accepts l.frame = false) → k'.retained = [] ∧ k'.fence = k.fence)) ∧
      (∀ i, i ∉ (v.kept v.policy.dispatch).map (·.1) → u.wall.staff[i]? = v.staff[i]?) ∧
      (s.wall.controller.isSome → s.wall.staff = u.wall.staff)) ∧
    v.submissions .firstTileOnly layers upload =
      (v.submissions .allTiles layers upload).filter fun o =>
        v.placed.head?.any (·.1 == o.output) := by
  intro r v s
  have hidle : ∀ (i : Nat) (k : Worker), v.staff[i]? = some (some k) → k.Idle :=
    fun i k hk => h.orderly.idle_reconcile hf c hk
  obtain ⟨hwall, hevents, -⟩ := Run.begin_present hh hc hp layers upload
  obtain ⟨u, hmem, htasks, hcall, hturns⟩ :=
    Run.exists_turns_present hh hc hp hn hidle layers upload hu
  have hend : s = u.incur { wall := { u.wall with presenting := u.wall.presenting - 1 }.settle } :=
    hcall.trans (Run.after_eq_of_tasks (by simp) rfl rfl)
  refine ⟨?_, ⟨u, hmem, htasks, ?_, ?_, ?_⟩, Wall.submissions_firstTileOnly layers upload⟩
  · obtain ⟨es, hes, hoffers⟩ := hturns.offers
    refine ⟨es, ?_, hoffers⟩
    rw [hevents] at hes
    rw [hend, ← hes]
    exact List.append_nil _
  · intro p hp
    obtain ⟨k, k', hk, hk', hhandles⟩ := hturns.each _ (List.mem_map_of_mem hp)
    rw [hwall] at hk
    refine ⟨k, k', hk, hk', hhandles.retained_eq, fun hnone => ?_⟩
    have hnil : k'.retained = [] := by
      rw [hhandles.retained_eq, Window.assign, List.map_eq_nil_iff, List.filter_eq_nil_iff]
      intro l hl
      simp [hnone l hl]
    exact ⟨hnil, hhandles.fence_eq hnil⟩
  · intro i hi
    have hothers := hturns.others i
    rw [List.map_map, hwall] at hothers
    exact hothers hi
  · intro hsome
    rw [hend] at hsome ⊢
    rcases Wall.keeps_or_ends_settle { u.wall with presenting := u.wall.presenting - 1 } with
      hkeeps | hends
    · exact hkeeps.staff_eq
    · exact absurd hsome (by simp [Run.incur, hends.controller_eq])

/-- Three outputs have shown a frame that covers them all. While the first of them shows the next
    one, the second is unplugged, the third moves, and the wall is powered down. -/
def rewired : Tracked :=
  let output (width : Nat) : Output :=
    { configs := [⟨width, 10, none, none, none⟩], fences := true }
  let everywhere : Frame := ⟨⟨0⟩, ⟨0⟩, ⟨0x7ff0000000000000⟩, ⟨0⟩⟩
  [.setPowerMode .on, .present [⟨⟨1⟩, everywhere, none⟩] true,
    .change 0 {} (some [.plug 1 false, .hotplugUpdate false,
      .change 2 { logicalIndex := some 0 } none, .setPowerMode .off])].foldl
    Tracked.perform { run := (Wall.create [output 100, output 50, output 10] .concurrent).resting }

theorem present_offers_rewired :
    let r := rewired.run
    let ten : Coordinate := ⟨0x4024000000000000⟩
    let twenty : Coordinate := ⟨0x4034000000000000⟩
    let most : Coordinate := ⟨0x405e000000000000⟩
    let narrow : Layer := ⟨⟨2⟩, ⟨ten, ten, twenty, ten⟩, none⟩
    let wide : Layer := ⟨⟨3⟩, ⟨twenty, ten, most, ten⟩, none⟩
    let first : Constraints := ⟨0, 100, 0, 100, 3⟩
    let second : Constraints := ⟨0, 50, 100, 150, 2⟩
    let s := r.call (.present [narrow, wide] true)
    Reached rewired ∧ r.wall.held = true ∧
      (∃ c, r.wall.controller = some c ∧ c.power.isOn = true) ∧
      s.wall.plugged = [true, false, true] ∧
      (∃ es, s.events = r.events ++ es ∧ Event.offers es =
        [⟨0, [⟨narrow, first⟩, ⟨wide, first⟩], true⟩, ⟨1, [⟨wide, second⟩], true⟩]) ∧
      ∃ k, s.wall.staff[2]? = some (some k) ∧ k.retained = [] ∧ k.fence = some ⟨0⟩ := by
  intro r ten twenty most narrow wide first second s
  have hreached : Reached rewired := by
    refine (((Reached.create _ _).perform rfl _).perform ?_ _).perform ?_ _
    all_goals decide +kernel
  have hpresenting := hreached.presenting_eq_zero (by decide +kernel)
  obtain ⟨c, hc, hp⟩ : ∃ c, r.wall.controller = some c ∧ c.power.isOn = true := ⟨_, rfl, rfl⟩
  let third : Window := ⟨2, 3, 150, 160, 0, 10⟩
  -- the wall as the frame begins
  have hbegins : r.wall.controller.map (fun c =>
      let v := r.wall.reconcile c
      (v.submissions v.policy.dispatch [narrow, wide] true, (v.kept v.policy.dispatch)[2]?,
        v.staff[2]?.map (Option.map Worker.fence))) =
      some ([⟨0, [⟨narrow, first⟩, ⟨wide, first⟩], true⟩, ⟨1, [⟨wide, second⟩], true⟩],
        some (2, third), some (some (some ⟨0⟩))) := by
    decide +kernel
  simp only [hc, Option.map_some, Option.some.injEq, Prod.mk.injEq] at hbegins
  obtain ⟨hlist, hthird, hfence⟩ := hbegins
  obtain ⟨⟨es, hes, hoffers⟩, ⟨u, -, -, heach, -, hstaff⟩, -⟩ :=
    hreached.present_offers (by decide +kernel) hc hp (by decide +kernel) hpresenting
      [narrow, wide] true (by decide +kernel)
  refine ⟨hreached, by decide +kernel, ⟨c, hc, hp⟩, by decide +kernel, ⟨es, hes, ?_⟩, ?_⟩
  · rw [hoffers, hlist]
  · obtain ⟨k, k', hk, hk', -, hnone⟩ := heach _ (List.mem_of_getElem? hthird)
    obtain ⟨hretained, hkept⟩ := hnone (by decide +kernel)
    dsimp only at hk hk'
    rw [hk, Option.map_some, Option.map_some, Option.some.injEq, Option.some.injEq] at hfence
    refine ⟨k', ?_, hretained, hkept.trans hfence⟩
    rw [← hk', hstaff (by decide +kernel)]

end VideoWall
