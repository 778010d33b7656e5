import Mathlib.Tactic.ByContra
import VideoWall.Proofs.Steady

/-! Ordinary operations, performed to their end.

    Whatever is left to do in a steady wall is calm again: a listener that is told something has an
    ordinary script, and so has an output that shows a frame. So ordinary operations may re-enter
    the controller as they like. `Wall.Steady.perform` says that they keep which outputs are
    connected, the connection state that the host was told and the number of outputs that take part
    in a vsync cycle, and that they tell no hotplug. For a hotplug, what is told is what was decided
    when it came in. -/

namespace VideoWall

section

variable {plugged : List Bool} {flag : Bool} {divisor : Nat} {w : Wall}

namespace Wall

/-! ### Tasks -/

theorem isOrdinary_of_mem_perform {script : List Op} (h : Op.areOrdinary script = true) {t : Task}
    (ht : t ∈ script.map Task.perform) : t.isOrdinary = true := by
  obtain ⟨op, hop, rfl⟩ := List.mem_map.1 ht
  exact Op.isOrdinary_of_mem h hop

/-- A listener whose script has run once more is the same listener still. -/
theorem Steady.setListener (h : w.Steady plugged flag divisor) (n : Nat) {l : Listener}
    (hl : Op.areOrdinary l.script = true) :
    { w with listeners := w.listeners.set n l }.Steady plugged flag divisor where
  held := h.held
  plugged_eq := h.plugged_eq
  scripts := by
    intro m hm
    rcases List.mem_or_eq_of_mem_set hm with hm | rfl
    · exact h.scripts m hm
    · exact hl
  onPresent := h.onPresent
  controller := by
    obtain ⟨c, hc, hw⟩ := h.controller
    refine ⟨c, hc, ?_⟩
    rw [List.length_set]
    exact hw

/-- A listener that is told something tells nobody else; what its script does is ordinary. -/
theorem Steady.calm_deliver (h : w.Steady plugged flag divisor) {d : Delivery}
    (hd : d.notice.hotplug? ≠ none → d.listener < w.listeners.length) :
    (w.deliver d).Calm plugged flag divisor w.listeners.length d.notice.hotplug?.toList := by
  rcases w.deliver_cases d with ⟨he, hnone⟩ | ⟨l, hl, hcases⟩
  · have hn : d.notice.hotplug? = none := by
      by_contra hne
      rw [List.getElem?_eq_none_iff] at hnone
      exact absurd (hd hne) (Nat.not_lt.2 hnone)
    rw [hn, he]
    exact h.calm_self rfl rfl rfl
  · have hscript := h.scripts l (List.mem_of_getElem? hl)
    have htold : Event.hotplugs [Event.told d.listener l.tag d.display d.notice] =
        d.notice.hotplug?.toList := by
      show List.filterMap _ _ = _
      cases hn : d.notice.hotplug? <;> simp [Event.hotplug?, hn]
    rcases hcases with ⟨-, he⟩ | ⟨left, -, he⟩ <;> rw [he]
    · refine ⟨h, Nat.le_refl _, List.forall_mem_nil _, ?_⟩
      rw [htold]
      exact List.append_nil _
    · refine ⟨h.setListener d.listener hscript, Nat.le_of_eq List.length_set.symm, ?_, ?_⟩
      · intro t ht
        exact Task.fits_of_isOrdinary (isOrdinary_of_mem_perform hscript ht) _
      · have hnil : Task.hotplugs (l.script.map .perform) = [] := Task.hotplugs_eq_nil
          fun t ht => Task.hotplug?_of_isOrdinary (isOrdinary_of_mem_perform hscript ht)
        rw [htold, hnil, List.append_nil]

/-- The end of a call on a controller that the host holds. -/
theorem Steady.calm_settle {v : Wall} (hv : v.Steady plugged flag divisor)
    (hl : v.listeners = w.listeners) :
    ({ wall := v.settle } : Effect).Calm plugged flag divisor w.listeners.length [] := by
  rw [settle_of_held hv.held]
  exact Effect.calm_of_ordinary hv (Nat.le_of_eq (congrArg List.length hl.symm))
    (List.forall_mem_nil _) (List.forall_mem_nil _)

theorem Steady.calm_dispatch (h : w.Steady plugged flag divisor) (i : Nat) (job : Job) :
    (w.dispatch i job).Calm plugged flag divisor w.listeners.length [] := by
  rcases w.dispatch_cases i job with ⟨log, he, -⟩ | ⟨k, -, -, he⟩ <;> rw [he]
  · exact h.calm_self rfl rfl rfl
  · have hs := h.setTile i
      (f := fun t => { t with worker := some { k with queue := k.queue ++ [job] } })
      (fun _ _ => rfl) fun _ _ ht => ht
    exact hs.calm_self rfl rfl rfl

/-- While an output shows a frame its script runs, which is ordinary. -/
theorem Steady.calm_work (h : w.Steady plugged flag divisor) (i : Nat) :
    (w.work i).Calm plugged flag divisor w.listeners.length [] := by
  rcases w.work_cases i with
    ⟨he, -⟩ | ⟨t, k, job, k', ht, -, -, script, onPresent, log, he, hleft⟩ <;> rw [he]
  · exact h.calm_self rfl rfl rfl
  · have htile := h.onPresent t (List.mem_of_getElem? ht)
    obtain ⟨hscript, honPresent⟩ : Op.areOrdinary script = true ∧
        Op.areOrdinary onPresent = true := by
      rcases hleft with ⟨rfl, rfl⟩ | ⟨rfl, rfl⟩
      · exact ⟨rfl, htile⟩
      · exact ⟨htile, rfl⟩
    refine Effect.calm_of_ordinary ?_ (Nat.le_refl _) ?_ ?_
    · refine h.setTile i ?_ fun _ _ _ => honPresent
      intro u hu
      rw [Option.some.inj (hu.symm.trans ht)]
      exact k'.connected_compose t.output job
    · intro u hu
      rcases List.mem_append.1 hu with hu | hu
      · exact isOrdinary_of_mem_perform hscript hu
      · rw [List.mem_singleton.1 hu]
        rfl
    · intro x hx
      obtain ⟨c, -, rfl⟩ := Option.map_eq_some_iff.1 (Option.mem_toList.1 hx)
      rfl

theorem Steady.calm_finish (h : w.Steady plugged flag divisor) (i : Nat) (upload : Bool)
    (s : Submission) :
    (w.finish i upload s).Calm plugged flag divisor w.listeners.length [] := by
  have hu : { w with uploads := w.uploads + s.uploads upload }.Steady plugged flag divisor :=
    h.of_tiles rfl rfl rfl rfl h.onPresent
  have ht := hu.setTile i (f := (·.finish s)) (fun t _ => t.connected_finish s) fun t _ hp => by
    rw [Tile.onPresent_finish]
    exact hp
  exact ht.calm_self rfl rfl rfl

theorem Steady.calm_await (h : w.Steady plugged flag divisor) (mark i : Nat) :
    (w.exec mark (.await i)).Calm plugged flag divisor w.listeners.length [] :=
  (h.setTile i (f := fun t => { t with worker := t.worker.map Worker.wait })
    (fun _ _ => rfl) fun _ _ ht => ht).calm_self rfl rfl rfl

theorem Steady.calm_arrive (h : w.Steady plugged flag divisor) (i : Nat) (r : Vblank.Reading) :
    (w.arrive i r).Calm plugged flag divisor w.listeners.length [] := by
  have hs := h.setOutput i (f := (·.mapLoop (·.enqueue r))) fun _ => rfl
  rcases w.arrive_cases i r with ⟨he, -⟩ | he <;> rw [he]
  · exact hs.calm_self rfl rfl rfl
  · refine Effect.calm_of_ordinary hs (Nat.le_refl _) ?_ (List.forall_mem_nil _)
    intro t ht
    rw [List.mem_singleton.1 ht]
    rfl

theorem Steady.calm_poll (h : w.Steady plugged flag divisor) (i : Nat) :
    (w.poll i).Calm plugged flag divisor w.listeners.length [] := by
  rcases w.poll_cases i with ⟨he, -⟩ | ⟨l, r, m, -, -, he⟩ <;> rw [he]
  · exact h.calm_self rfl rfl rfl
  · have hs := h.setOutput i (f := (·.mapLoop fun _ => m)) fun _ => rfl
    exact Effect.calm_of_ordinary hs (Nat.le_refl _)
      (Task.forall_iteration (P := fun t => t.isOrdinary = true) (fun _ => rfl) rfl rfl r.items)
      (List.forall_mem_nil _)

/-- A flip that a loop forwards is a vblank. -/
theorem Steady.calm_item (h : w.Steady plugged flag divisor) (i : Nat) (x : Vblank.Item) :
    (w.item i x).Calm plugged flag divisor w.listeners.length [] := by
  rcases w.item_cases i x with ⟨log, he, -⟩ | ⟨l, f, log, -, -, ⟨-, he⟩ | ⟨call, -, he⟩⟩ <;> rw [he]
  · exact h.calm_self rfl rfl rfl
  · have hs := h.setOutput i (f := (·.mapLoop fun _ => (l.flip f).1)) fun _ => rfl
    exact hs.calm_self rfl rfl rfl
  · have hs := h.setOutput i (f := (·.mapLoop fun _ => (l.flip f).1)) fun _ => rfl
    have hv := hs.calm_enter_vblank call.time
    exact ⟨hv.steady, hv.listeners_le, hv.fits, hv.told_eq⟩

theorem Steady.calm_arm (h : w.Steady plugged flag divisor) (i : Nat) :
    (w.arm i).Calm plugged flag divisor w.listeners.length [] := by
  rcases w.arm_cases i with ⟨he, -⟩ | ⟨l, -, he⟩ <;> rw [he]
  · exact h.calm_self rfl rfl rfl
  · exact (h.setOutput i (f := (·.mapLoop fun _ => l.arm.1)) fun _ => rfl).calm_self rfl rfl rfl

/-- A task that fits a steady wall keeps it steady, and what comes to be told is what the task tells
    itself. -/
theorem Steady.calm_exec (h : w.Steady plugged flag divisor) (mark : Nat) {t : Task}
    (ht : t.Fits w.listeners.length) :
    (w.exec mark t).Calm plugged flag divisor w.listeners.length t.hotplug?.toList := by
  cases t with
  | perform op =>
    have he := h.calm_begin ht mark
    refine ⟨he.steady, he.listeners_le, ?_, ?_⟩
    · intro t htm
      rcases List.mem_append.1 htm with htm | htm
      · exact he.fits t htm
      · rw [List.mem_singleton.1 htm]
        trivial
    · have hr : Task.hotplugs [.report op (w.begin mark op).reply] = [] := rfl
      show _ ++ Task.hotplugs ((w.begin mark op).tasks ++ _) = _
      rw [Task.hotplugs_append, hr, List.append_nil]
      exact he.told_eq
  | report op reply =>
    exact Effect.calm_of_ordinary h (Nat.le_refl _) (fun t htm => by cases htm) fun x hx => by
      rw [List.mem_singleton.1 hx]
      rfl
  | deliver d => exact h.calm_deliver ht
  | leave =>
    exact Steady.calm_settle (v := { w with delivering := w.delivering - 1 })
      (h.of_tiles rfl rfl rfl rfl h.onPresent) rfl
  | endFrame =>
    exact Steady.calm_settle (v := { w with presenting := w.presenting - 1 })
      (h.of_tiles rfl rfl rfl rfl h.onPresent) rfl
  | dispatch i job => exact h.calm_dispatch i job
  | work i => exact h.calm_work i
  | finish i upload s => exact h.calm_finish i upload s
  | await i => exact h.calm_await mark i
  | group m => exact h.calm_self rfl rfl rfl
  | arrive i r => exact h.calm_arrive i r
  | poll i => exact h.calm_poll i
  | item i x => exact h.calm_item i x
  | arm i => exact h.calm_arm i

end Wall

/-! ### Operations as a whole -/

/-- A wall in the middle of an operation, with nothing left to do but tasks that fit it, and `told`
    as what was told or is about to be. -/
structure Run.Calm (plugged : List Bool) (flag : Bool) (divisor : Nat) (told : List Bool)
    (r : Run) : Prop where
  steady : r.wall.Steady plugged flag divisor
  fits : ∀ t ∈ r.tasks, t.Fits r.wall.listeners.length
  told_eq : Event.hotplugs r.events ++ Task.hotplugs r.tasks = told

theorem Run.Calm.next {told : List Bool} {r : Run} (h : r.Calm plugged flag divisor told) :
    r.next.Calm plugged flag divisor told := by
  have htold := h.told_eq
  have hfits := h.fits
  rw [Run.next]
  split
  · next hnil =>
    have hpoll : Task.hotplugs (r.late.map .poll) = [] := Task.hotplugs_eq_nil fun t ht => by
      obtain ⟨i, -, rfl⟩ := List.mem_map.1 ht
      rfl
    refine ⟨h.steady, ?_, ?_⟩
    · intro t ht
      obtain ⟨i, -, rfl⟩ := List.mem_map.1 ht
      trivial
    · rw [hnil] at htold
      rw [hpoll]
      exact htold
  · next mark rest hcons =>
    rw [hcons] at htold hfits
    refine ⟨h.steady, fun t ht => hfits t (List.mem_cons_of_mem _ ht), ?_⟩
    rw [Event.hotplugs_append, Event.hotplugs_grouped, ← Event.hotplugs_append,
      List.take_append_drop]
    exact htold
  · next t rest _ hcons =>
    rw [hcons] at htold hfits
    have he := h.steady.calm_exec r.events.length (hfits t List.mem_cons_self)
    refine ⟨he.steady, ?_, ?_⟩
    · intro u hu
      rcases List.mem_append.1 hu with hu | hu
      · exact he.fits u hu
      · exact (hfits u (List.mem_cons_of_mem _ hu)).mono he.listeners_le
    · have hc : Task.hotplugs (t :: rest) = t.hotplug?.toList ++ Task.hotplugs rest := by
        rw [Task.hotplugs, List.filterMap_cons]
        cases t.hotplug? <;> rfl
      rw [hc, ← he.told_eq] at htold
      rw [Event.hotplugs_append, Task.hotplugs_append, ← htold]
      simp only [List.append_assoc]

/-- An operation that begins calmly ends on a steady wall, and what it tells is what was decided at
    its beginning. -/
theorem Wall.steady_perform_of_calm {op : Op} {listeners : Nat} {told : List Bool}
    (h : (w.begin 0 op).Calm plugged flag divisor listeners told) :
    (w.perform op).1.Steady plugged flag divisor ∧
      Event.hotplugs (w.perform op).2.events = told := by
  obtain ⟨hr, hnil⟩ := Wall.runOf_of_next (P := Run.Calm plugged flag divisor told)
    (fun r hr => hr.next) w op ⟨h.steady, h.fits, h.told_eq⟩
  refine ⟨hr.steady, ?_⟩
  have htold := hr.told_eq
  rw [hnil, Task.hotplugs_nil, List.append_nil] at htold
  exact htold

/-- An ordinary operation keeps a wall steady and tells no hotplug. -/
theorem Wall.Steady.perform (h : w.Steady plugged flag divisor) {op : Op}
    (hop : op.isOrdinary = true) :
    (w.perform op).1.Steady plugged flag divisor ∧
      Event.hotplugs (w.perform op).2.events = [] :=
  Wall.steady_perform_of_calm (h.calm_begin hop 0)

end

end VideoWall
