import VideoWall.Proofs.Fanout
import VideoWall.Proofs.Records
import VideoWall.Proofs.Tuning

/-! Loops hear from their controller.

    Controller and loops each keep their own word on whether vsync is enabled, and each ignores a
    request for what already holds. What keeps them together are the calls that the controller makes
    to its outputs, and these are on their way while other threads act. `Traffic.Sound` is what
    always holds: the last call on its way to an output, or else the loop there, is as the
    controller says, as long as no call has come to an output ahead of an earlier one that says
    otherwise. That can only happen to calls that different threads make, and never to those that
    register a listener: `Traffic.Sound.inOrder`. -/

namespace VideoWall

/-! ### Aspects -/

namespace Aspect

/-- What a loop is. -/
def ofLoop : Aspect → Vblank.Loop Unit → Bool
  | .running, l => l.running
  | .forwarding, l => l.enabled
  | .calling, l => l.callback.isSome

/-- What the loops of a controller are to be, that has been listened to or not. -/
def ofController : Aspect → Controller → Bool → Bool
  | .running, c, _ => c.power.isOn
  | .forwarding, c, _ => c.vsyncEnabled
  | .calling, _, listened => listened

theorem ofLoop_settings (a : Aspect) (l : Vblank.Loop Unit) :
    a.ofLoop l.settings = a.ofLoop l := by
  cases a <;> rfl

end Aspect

namespace Fanout

/-- What becomes of the loop of an output on a pipe that a call comes to. -/
def applyLoop (f : Fanout) (pipe : Nat) (l : Vblank.Loop Unit) : Vblank.Loop Unit :=
  match f with
  | .power mode => l.setPower mode
  | .control enabled => (l.control enabled).1
  | .register .vsync => l.register () ⟨pipe⟩
  | .register _ => l

@[simp] theorem pipe_apply (f : Fanout) (o : Output) : (f.apply o).pipe = o.pipe := by
  cases f with
  | register channel => cases channel <;> rfl
  | _ => rfl

theorem loop_apply (f : Fanout) (o : Output) :
    (f.apply o).loop = o.loop.map (f.applyLoop o.pipe) := by
  cases f with
  | power mode => rfl
  | control enabled => rfl
  | register channel =>
    cases channel with
    | vsync => rfl
    | refresh => exact Option.map_id'.symm
    | hotplug => exact Option.map_id'.symm

/-- A loop is what it has been told to be, and stays what it was otherwise. -/
theorem ofLoop_applyLoop (f : Fanout) (a : Aspect) (pipe : Nat) (l : Vblank.Loop Unit) :
    a.ofLoop (f.applyLoop pipe l) = (f.says? a).getD (a.ofLoop l) := by
  cases f with
  | power mode => cases mode <;> cases a <;> rfl
  | control enabled =>
    rw [applyLoop, Vblank.Loop.control]
    split
    · next h => cases a <;> first | rfl | exact h
    · cases a <;> rfl
  | register channel => cases channel <;> cases a <;> rfl

/-- A loop that calls somebody does so under the pipe of its output. -/
theorem display_applyLoop (f : Fanout) {pipe : Nat} {l : Vblank.Loop Unit}
    (h : l.callback.isSome = true → l.display = ⟨pipe⟩)
    (hf : (f.applyLoop pipe l).callback.isSome = true) : (f.applyLoop pipe l).display = ⟨pipe⟩ := by
  cases f with
  | power mode => cases mode <;> exact h hf
  | control enabled =>
    have hc : (l.control enabled).1.callback = l.callback ∧
        (l.control enabled).1.display = l.display := by
      rw [Vblank.Loop.control]
      split <;> exact ⟨rfl, rfl⟩
    exact hc.2.trans (h (hc.1 ▸ hf))
  | register channel =>
    cases channel with
    | vsync => rfl
    | refresh => exact h hf
    | hotplug => exact h hf

theorem contradicts_iff {f g : Fanout} :
    f.contradicts g = true ↔ ∃ a x y, f.says? a = some x ∧ g.says? a = some y ∧ x ≠ y := by
  constructor
  · intro h
    obtain ⟨a, -, ha⟩ := List.any_eq_true.1 h
    simp only [Bool.and_eq_true, Option.isSome_iff_exists, bne_iff_ne] at ha
    obtain ⟨⟨⟨x, hx⟩, y, hy⟩, hne⟩ := ha
    exact ⟨a, x, y, hx, hy, fun hxy => hne (by rw [hx, hy, hxy])⟩
  · rintro ⟨a, x, y, hx, hy, hne⟩
    refine List.any_eq_true.2 ⟨a, by cases a <;> simp, ?_⟩
    simp [hx, hy, hne]

/-- All registrations say the same. -/
theorem eq_true_of_says?_calling {f : Fanout} {x : Bool} (h : f.says? .calling = some x) :
    x = true := by
  cases f with
  | register channel => cases channel <;> simp_all [says?]
  | _ => cases h

/-- A call bears on one thing only. -/
theorem aspect_unique {f : Fanout} {a b : Aspect} {x y : Bool} (ha : f.says? a = some x)
    (hb : f.says? b = some y) : a = b := by
  cases f with
  | register channel => cases channel <;> cases a <;> cases b <;> simp_all [says?]
  | _ => cases a <;> cases b <;> simp_all [says?]

end Fanout

/-! ### What a move can do -/

namespace Wall

variable {w v : Wall} {call : Fanout} {op : Op}

/-- The same settings belong to a loop of the other wall. -/
theorem exists_of_settings_eq (h : v.settings = w.settings) {i : Nat} {t : Tile}
    {l : Vblank.Loop Unit} (ht : v.tiles[i]? = some t) (hl : t.output.loop = some l) :
    ∃ u m, w.tiles[i]? = some u ∧ u.output.loop = some m ∧ m.settings = l.settings ∧
      u.output.pipe = t.output.pipe := by
  have hi := congrArg (·[i]?) h
  simp only [settings, List.getElem?_map, ht, Option.map_some] at hi
  obtain ⟨u, hu, heq⟩ := Option.map_eq_some_iff.1 hi.symm
  rw [Tile.settings, Tile.settings, Prod.mk.injEq, hl, Option.map_some] at heq
  obtain ⟨m, hm, hset⟩ := Option.map_eq_some_iff.1 heq.2
  exact ⟨u, m, hu, hm, hset, heq.1⟩

/-- Nothing comes of an operation by which the holder tunes the wall, if it changes nothing at the
    controller. -/
theorem begin_of_commit?_eq_none (mark : Nat) (ht : op.isTuning = true) (h : w.commit? op = none) :
    ∃ reply, w.begin mark op = { wall := w, reply } := by
  cases op with
  | setPowerMode mode =>
    rcases w.asHolder_cases fun c => w.setPowerMode c mode with ⟨c, hh, hc, -⟩ | ⟨-, he⟩
    · simp [commit?, hh, hc] at h
    · exact ⟨.dropped, he⟩
  | control enabled =>
    rcases w.asHolder_cases fun c => w.control c enabled with ⟨c, hh, hc, he⟩ | ⟨-, he⟩
    · refine ⟨.ok, he.trans ?_⟩
      by_cases heq : c.vsyncEnabled = enabled
      · rw [control, if_pos heq]
      · simp [commit?, hh, hc, heq] at h
    · exact ⟨.dropped, he⟩
  | listen channel display tag script limit =>
    rcases w.asHolder_cases fun c => w.listen c channel display ⟨tag, script, limit⟩ with
      ⟨c, hh, hc, -⟩ | ⟨-, he⟩
    · simp [commit?, hh, hc] at h
    · exact ⟨.dropped, he⟩
  | _ => cases ht

/-- To ask for the vsync state that already holds makes no call. -/
theorem commit?_control_self {c : Controller} (hc : w.controller = some c) :
    w.commit? (.control c.vsyncEnabled) = none := by
  rw [commit?, hc]
  cases w.held <;> simp

/-- A chore that is done in one go tunes nothing. -/
theorem tunes_dispose (w : Wall) (mark : Nat) {x : Chore}
    (hx : ∀ op, x = .task (.perform op) → w.commit? op = none) :
    ∃ a, w.Tunes a (w.dispose mark x).wall := by
  have hexec : ∀ t : Task, (∀ op, t ≠ .perform op) → ∃ a, w.Tunes a (w.exec mark t).wall :=
    fun t ht => ⟨_, tunes_exec mark fun op hop => absurd hop (ht op)⟩
  cases x with
  | walk k => exact ⟨none, .refl w⟩
  | forward time => exact ⟨_, (sounds_enter fun c => c.decides_vblank time).wall⟩
  | task t =>
    cases t with
    | perform op =>
      cases htuning : op.isTuning with
      | false => exact ⟨_, (sounds_begin mark htuning).wall⟩
      | true =>
        obtain ⟨reply, he⟩ := begin_of_commit?_eq_none mark htuning (hx op rfl)
        have hwall : (w.dispose mark (.task (.perform op))).wall = (w.begin mark op).wall := rfl
        refine ⟨none, ?_⟩
        rw [hwall, he]
        exact .refl w
    | item i y =>
      cases y with
      | remark r => exact hexec _ (by simp)
      | flip f =>
        rcases w.dispose_flip_cases mark i f with ⟨-, he⟩ | ⟨l, hl, he⟩
        · rw [he]
          exact ⟨none, .refl w⟩
        · rw [he]
          refine ⟨none, w.tunes_mapLoop i fun m hm => ?_⟩
          rw [← Option.some.inj (hl.symm.trans hm), Vblank.Loop.flip]
          split <;> rfl
    | _ => exact hexec _ (by simp)

/-- An operation that goes to the outputs changes the controller first, and nothing about the
    outputs yet: what it tells the loops is what the controller says from then on, and about
    anything else the controller says what it said before. -/
theorem of_commit?_eq_some (h : w.commit? op = some (v, call)) :
    ∃ c c', w.controller = some c ∧ v.controller = some c' ∧ v.tiles = w.tiles ∧
      ∀ a listened, a.ofController c' (listened || call == .register .vsync) =
        (call.says? a).getD (a.ofController c listened) := by
  rw [commit?] at h
  split at h
  · next c _ hc =>
    split at h
    · next mode =>
      cases h
      exact ⟨c, _, hc, rfl, rfl, fun a _ => by cases a <;> simp [Aspect.ofController, Fanout.says?]⟩
    · next enabled =>
      split at h
      · cases h
      · next hne =>
        cases h
        refine ⟨c, _, hc, rfl, rfl, fun a _ => ?_⟩
        cases a <;> simp [Aspect.ofController, Fanout.says?, Controller.control, hne]
    · next channel _ _ _ _ =>
      cases h
      refine ⟨c, _, hc, rfl, rfl, fun a _ => ?_⟩
      cases channel <;> cases a <;>
        simp [Aspect.ofController, Fanout.says?, Controller.listen, Controller.listenVsync,
          Controller.listenRefresh, Controller.listenHotplug]
    · cases h
  · cases h

end Wall

namespace Traffic

/-- What a move can do. -/
inductive Step (s : Traffic) : Traffic → Prop
  | idle : Step s s
  | begin {j : Nat} (hj : s.threads[j]? = some []) (op : Op) :
    Step s { s with threads := s.threads.set j [.task (.perform op)] }
  | commit {j : Nat} {op : Op} {rest : List Chore} {w : Wall} {call : Fanout}
    (hj : s.threads[j]? = some (.task (.perform op) :: rest))
    (hw : s.wall.commit? op = some (w, call)) : Step s (s.commit j op rest w call)
  | visit {j k : Nat} {rest : List Chore} {v : Walk} {t : Tile}
    (hj : s.threads[j]? = some (.walk k :: rest)) (hv : s.walks[k]? = some v)
    (ht : s.wall.tiles[v.next]? = some t) : Step s (s.visit k v t)
  | dispose {j : Nat} {x : Chore} {rest : List Chore} (hj : s.threads[j]? = some (x :: rest))
    (hop : ∀ op, x = .task (.perform op) → s.wall.commit? op = none)
    (hwalk : ∀ k v, x = .walk k → s.walks[k]? = some v → s.wall.tiles.length ≤ v.next)
    (mark : Nat) : Step s (s.dispose j mark x rest)

theorem step_turn (s : Traffic) (j mark : Nat) : s.Step (s.turn j mark) := by
  rw [turn]
  split
  · next x rest hj =>
    split
    · next op w call hw =>
      cases x with
      | task t =>
        cases t with
        | perform op' =>
          obtain ⟨p, hp, heq⟩ := Option.map_eq_some_iff.1 hw
          cases heq
          exact .commit hj hp
        | _ => cases hw
      | _ => cases hw
    · next k v t hw hv =>
      cases x with
      | walk k' =>
        obtain ⟨v', hv', hsome⟩ := Option.bind_eq_some_iff.1 hv
        obtain ⟨t', ht', heq⟩ := Option.bind_eq_some_iff.1 hsome
        cases heq
        exact .visit hj hv' ht'
      | _ => cases hv
    · next hw hv =>
      refine .dispose hj ?_ ?_ mark
      · rintro op rfl
        exact Option.map_eq_none_iff.1 hw
      · rintro k v rfl hk
        cases ht : s.wall.tiles[v.next]? with
        | none => exact List.getElem?_eq_none_iff.1 ht
        | some t => simp [visit?, hk, ht] at hv
  · exact .idle

theorem step_move (s : Traffic) (m : Move) : s.Step (s.move m) := by
  cases m with
  | turn j mark => exact s.step_turn j mark
  | begin j op =>
    rw [move]
    split
    · next hj => exact .begin hj op
    · exact .idle

/-! ### What always holds -/

/-- What calls on their way to an output will tell the loop there about something, oldest first. -/
def heading (s : Traffic) (a : Aspect) (i : Nat) : List Bool :=
  s.walks.filterMap fun v => if v.next ≤ i then v.call.says? a else none

/-- What a loop will be once all calls on their way have come to its output, or what it is if none
    of them tells it anything about that. -/
def word (s : Traffic) (a : Aspect) (i : Nat) (l : Vblank.Loop Unit) : Bool :=
  (s.heading a i).getLast?.getD (a.ofLoop l)

/-- No call that says anything about that has come to an output ahead of an earlier one that says
    otherwise. -/
def InOrder (s : Traffic) (a : Aspect) : Prop :=
  ∀ v ∈ s.walks, (v.call.says? a).isSome = true → v.early = false

instance (s : Traffic) (a : Aspect) : Decidable (s.InOrder a) :=
  inferInstanceAs (Decidable (∀ v ∈ s.walks, (v.call.says? a).isSome = true → v.early = false))

/-- A loop has been told, or will be, what the controller says, as long as calls come in order. It
    calls under the pipe of its output. Calls that come out of order are made by different threads:
    one that makes a call takes it to all outputs before it does anything else. -/
structure Sound (s : Traffic) : Prop where
  word_eq : ∀ c, s.wall.controller = some c → ∀ a, s.InOrder a → ∀ (i : Nat) (t : Tile)
    (l : Vblank.Loop Unit), s.wall.tiles[i]? = some t → t.output.loop = some l →
      s.word a i l = a.ofController c s.listened
  display_eq : ∀ (i : Nat) (t : Tile) (l : Vblank.Loop Unit), s.wall.tiles[i]? = some t →
    t.output.loop = some l → l.callback.isSome = true → l.display = ⟨t.output.pipe⟩
  contradicted : ∀ v ∈ s.walks, v.early = true →
    ∃ u ∈ s.walks, u.author ≠ v.author ∧ u.call.contradicts v.call = true
  first : ∀ (k : Nat) (v : Walk), s.walks[k]? = some v → v.next < s.wall.tiles.length →
    s.threads[v.author]?.bind List.head? = some (.walk k)

variable {s s' : Traffic} {a : Aspect}

/-! ### Moves that tune nothing -/

/-- As long as no call comes to an output, only the settings of the loops matter, and what the
    controller says. -/
theorem Sound.of_settings (h : s.Sound) (hwalks : s'.walks = s.walks)
    (hset : s'.wall.settings = s.wall.settings)
    (hc : ∀ c', s'.wall.controller = some c' → ∃ c, s.wall.controller = some c ∧
      ∀ (a : Aspect) (listened : Bool), a.ofController c' listened = a.ofController c listened)
    (hfirst : ∀ (k : Nat) (v : Walk), s.walks[k]? = some v → v.next < s.wall.tiles.length →
      s'.threads[v.author]?.bind List.head? = some (.walk k)) : s'.Sound where
  word_eq := by
    intro c' hc' a horder i t l ht hl
    obtain ⟨c, hcs, hof⟩ := hc c' hc'
    obtain ⟨u, m, hu, hm, heq, -⟩ := Wall.exists_of_settings_eq hset ht hl
    have hlistened : s'.listened = s.listened := by rw [listened, hwalks, listened]
    have hword : s'.word a i l = s.word a i m := by
      rw [word, word, heading, heading, hwalks, ← a.ofLoop_settings l, ← heq, a.ofLoop_settings]
    rw [hword, hof, hlistened]
    exact h.word_eq c hcs a (fun v hv => horder v (hwalks ▸ hv)) i u m hu hm
  display_eq := by
    intro i t l ht hl hcall
    obtain ⟨u, m, hu, hm, heq, hpipe⟩ := Wall.exists_of_settings_eq hset ht hl
    have hmcall : m.callback.isSome = true := by
      rw [← hcall]
      exact congrArg (·.callback.isSome) heq
    rw [← hpipe, ← h.display_eq i u m hu hm hmcall]
    exact (congrArg (·.display) heq).symm
  contradicted := hwalks ▸ h.contradicted
  first := by
    have hlength : s'.wall.tiles.length = s.wall.tiles.length := by
      simpa [Wall.settings] using congrArg List.length hset
    rw [hwalks, hlength]
    exact hfirst

/-- What a thread that is not about to take a call to an output does next leaves all those that are
    first in turn. -/
theorem Sound.first_set (h : s.Sound) {j : Nat} {ts : List Chore} (hj : s.threads[j]? = some ts)
    (hhead : ∀ k v, ts.head? = some (.walk k) → s.walks[k]? = some v →
      s.wall.tiles.length ≤ v.next) (us : List Chore) (more : List (List Chore)) (k : Nat)
    (v : Walk) (hv : s.walks[k]? = some v) (hlt : v.next < s.wall.tiles.length) :
    (s.threads.set j us ++ more)[v.author]?.bind List.head? = some (.walk k) := by
  have hfirst := h.first k v hv hlt
  have hne : j ≠ v.author := by
    rintro rfl
    rw [hj] at hfirst
    exact Nat.not_le_of_lt hlt (hhead k v hfirst hv)
  obtain ⟨us', hus, -⟩ := Option.bind_eq_some_iff.1 hfirst
  have hlen : v.author < (s.threads.set j us).length := by
    rw [List.length_set]
    exact (List.getElem?_eq_some_iff.1 hus).1
  rw [List.getElem?_append_left hlen, List.getElem?_set_ne hne]
  exact hfirst

theorem Sound.begin (h : s.Sound) {j : Nat} (hj : s.threads[j]? = some []) (op : Op) :
    Sound { s with threads := s.threads.set j [.task (.perform op)] } := by
  refine h.of_settings rfl rfl (fun c hc => ⟨c, hc, fun _ _ => rfl⟩) fun k v hv hlt => ?_
  have hfirst :=
    h.first_set hj (fun _ _ hnil _ => by cases hnil) [.task (.perform op)] [] k v hv hlt
  rwa [List.append_nil] at hfirst

theorem Sound.dispose (h : s.Sound) {j : Nat} {x : Chore} {rest : List Chore}
    (hj : s.threads[j]? = some (x :: rest))
    (hop : ∀ op, x = .task (.perform op) → s.wall.commit? op = none)
    (hwalk : ∀ k v, x = .walk k → s.walks[k]? = some v → s.wall.tiles.length ≤ v.next)
    (mark : Nat) : (s.dispose j mark x rest).Sound := by
  obtain ⟨act, htunes⟩ := s.wall.tunes_dispose mark hop
  refine h.of_settings rfl htunes.settings_eq (fun c' hc' => ?_) ?_
  · obtain ⟨c, hc, htuned⟩ := htunes.controller c' hc'
    refine ⟨c, hc, fun a listened => ?_⟩
    cases a with
    | running => exact congrArg PowerMode.isOn htuned.power_eq
    | forwarding => exact htuned.enabled_eq
    | calling => rfl
  · exact h.first_set hj (fun k v hhead => hwalk k v (Option.some.inj hhead)) _ _

/-! ### A new call -/

theorem heading_commit (s : Traffic) (a : Aspect) (j : Nat) (op : Op) (rest : List Chore)
    (w : Wall) (call : Fanout) (i : Nat) :
    (s.commit j op rest w call).heading a i = s.heading a i ++ (call.says? a).toList := by
  rw [heading, commit, List.filterMap_append, ← heading]
  cases hs : call.says? a <;> simp [hs]

theorem Sound.commit (h : s.Sound) {j : Nat} {op : Op} {rest : List Chore} {w : Wall}
    {call : Fanout} (hj : s.threads[j]? = some (.task (.perform op) :: rest))
    (hw : s.wall.commit? op = some (w, call)) : (s.commit j op rest w call).Sound := by
  obtain ⟨c, c', hc, hc', htiles, hof⟩ := Wall.of_commit?_eq_some hw
  have hold : ∀ v, v ∈ s.walks → v ∈ (s.commit j op rest w call).walks := fun v hv =>
    List.mem_append_left _ hv
  refine ⟨?_, ?_, ?_, ?_⟩
  · intro d hd a horder i t l ht hl
    obtain rfl : c' = d := Option.some.inj (hc'.symm.trans hd)
    have hlistened : (s.commit j op rest w call).listened =
        (s.listened || call == .register .vsync) := by
      simp [listened, Traffic.commit]
    have hword := h.word_eq c hc a (fun v hv => horder v (hold v hv)) i t l (htiles ▸ ht) hl
    rw [hlistened, hof, ← hword, word, word, heading_commit]
    cases call.says? a <;> simp
  · intro i t l ht
    exact h.display_eq i t l (htiles ▸ ht)
  · intro v hv hearly
    rcases List.mem_append.1 hv with hv | hv
    · obtain ⟨u, hu, hne, hcon⟩ := h.contradicted v hv hearly
      exact ⟨u, hold u hu, hne, hcon⟩
    · rw [List.mem_singleton.1 hv] at hearly
      cases hearly
  · intro k v hv hlt
    have hlt : v.next < s.wall.tiles.length := htiles ▸ hlt
    have hself : (s.threads.set j (.walk s.walks.length :: .task (.report op .ok) :: rest))[j]? =
        some (.walk s.walks.length :: .task (.report op .ok) :: rest) :=
      List.getElem?_set_self (List.getElem?_eq_some_iff.1 hj).1
    by_cases hk : k < s.walks.length
    · have hv : s.walks[k]? = some v := by rwa [← List.getElem?_append_left hk]
      have hfirst := h.first_set hj (fun _ _ hhead _ => by cases hhead)
        (.walk s.walks.length :: .task (.report op .ok) :: rest) [] k v hv hlt
      rwa [List.append_nil] at hfirst
    · obtain ⟨rfl, rfl⟩ : k = s.walks.length ∧ v = { author := j, call } := by
        have hnew := (List.getElem?_append_right (Nat.le_of_not_lt hk)).symm.trans hv
        have hzero := (List.getElem?_eq_some_iff.1 hnew).1
        have hk' : k = s.walks.length := by
          simp only [List.length_singleton] at hzero
          omega
        subst hk'
        simpa using hnew.symm
      exact (congrArg (·.bind List.head?) hself).trans rfl

/-! ### A call comes to an output -/

/-- A list around one of its members. -/
theorem exists_around {α : Type} {xs : List α} {k : Nat} {x : α} (h : xs[k]? = some x) :
    ∃ before after, xs = before ++ x :: after ∧ xs.take k = before ∧
      ∀ y, xs.set k y = before ++ y :: after := by
  obtain ⟨hk, rfl⟩ := List.getElem?_eq_some_iff.1 h
  refine ⟨xs.take k, xs.drop (k + 1), ?_, rfl, fun y => List.set_eq_take_append_cons_drop.trans ?_⟩
  · rw [List.getElem_cons_drop, List.take_append_drop]
  · rw [if_pos hk]

/-- The loop of a tile after a call has come to some output. -/
theorem exists_of_visit {w : Wall} {i j : Nat} {call : Fanout} {t : Tile} {l : Vblank.Loop Unit}
    (ht : (w.setOutput i call.apply).tiles[j]? = some t) (hl : t.output.loop = some l) :
    ∃ u m, w.tiles[j]? = some u ∧ u.output.loop = some m ∧ t.output.pipe = u.output.pipe ∧
      l = if i = j then call.applyLoop u.output.pipe m else m := by
  rw [Wall.setOutput, Wall.setTile, List.getElem?_modify] at ht
  obtain ⟨u, hu, rfl⟩ := Option.map_eq_some_iff.1 ht
  by_cases hi : i = j
  · rw [if_pos hi] at hl ⊢
    rw [Fanout.loop_apply] at hl
    obtain ⟨m, hm, rfl⟩ := Option.map_eq_some_iff.1 hl
    exact ⟨u, m, hu, hm, Fanout.pipe_apply .., by rw [if_pos hi]⟩
  · rw [if_neg hi] at hl ⊢
    exact ⟨u, l, hu, hl, rfl, by rw [if_neg hi]⟩

/-- Two calls that the same thread takes to the outputs are never on their way at the same time. -/
theorem Sound.author_ne (h : s.Sound) {k k' : Nat} {u v : Walk} (hu : s.walks[k']? = some u)
    (hv : s.walks[k]? = some v) (hne : k' ≠ k) (hulen : u.next < s.wall.tiles.length)
    (hvlen : v.next < s.wall.tiles.length) : u.author ≠ v.author := by
  intro heq
  have hufirst := h.first k' u hu hulen
  rw [heq, h.first k v hv hvlen] at hufirst
  cases hufirst
  exact hne rfl

/-- A call that comes to an output is the word there, unless a later one is on its way, too. Earlier
    ones that say otherwise have come there before. -/
theorem word_visit {v : Walk} {before after : List Walk} (hwalks : s.walks = before ++ v :: after)
    (hwalks' : s'.walks = before ++ { v with next := v.next + 1, early } :: after)
    (hagree : ∀ u ∈ before, u.next ≤ v.next → ∀ x y, u.call.says? a = some x →
      v.call.says? a = some y → x = y) (pipe : Nat) (l : Vblank.Loop Unit) :
    s'.word a v.next (v.call.applyLoop pipe l) = s.word a v.next l := by
  have hpast : ¬ v.next + 1 ≤ v.next := Nat.not_succ_le_self _
  rw [word, word, heading, heading, hwalks, hwalks', Fanout.ofLoop_applyLoop]
  simp only [List.filterMap_append, List.filterMap_cons, Nat.le_refl, if_true, if_neg hpast]
  cases hsays : v.call.says? a with
  | none => rfl
  | some y =>
    dsimp only [Option.getD_some]
    rw [← List.singleton_append, ← List.append_assoc]
    cases List.eq_nil_or_concat (after.filterMap fun u =>
      if u.next ≤ v.next then u.call.says? a else none) with
    | inr hlater =>
      obtain ⟨xs, x, hx⟩ := hlater
      rw [hx, List.concat_eq_append, ← List.append_assoc, List.getLast?_concat,
        ← List.append_assoc, List.getLast?_concat]
      rfl
    | inl hnone =>
      rw [hnone, List.append_nil, List.append_nil, List.getLast?_concat]
      -- what was told earlier is the same
      have hall : ∀ x ∈ before.filterMap fun u =>
          if u.next ≤ v.next then u.call.says? a else none, x = y := by
        intro x hx
        obtain ⟨u, hu, hux⟩ := List.mem_filterMap.1 hx
        split at hux
        · next hle => exact hagree u hu hle x y hux hsays
        · cases hux
      cases hlast : (before.filterMap fun u =>
          if u.next ≤ v.next then u.call.says? a else none).getLast? with
      | none => rfl
      | some x => exact hall x (List.mem_of_getLast? hlast)

/-- A call that comes to an output changes no word anywhere else. -/
theorem word_visit_of_ne {v : Walk} {before after : List Walk} {early : Bool}
    (hwalks : s.walks = before ++ v :: after)
    (hwalks' : s'.walks = before ++ { v with next := v.next + 1, early } :: after) {i : Nat}
    (hi : v.next ≠ i) (l : Vblank.Loop Unit) : s'.word a i l = s.word a i l := by
  have hle : v.next + 1 ≤ i ↔ v.next ≤ i := by omega
  rw [word, word, heading, heading, hwalks, hwalks']
  simp only [List.filterMap_append, List.filterMap_cons, hle]

theorem Sound.visit (h : s.Sound) {k : Nat} {v : Walk} {t : Tile} (hv : s.walks[k]? = some v)
    (ht : s.wall.tiles[v.next]? = some t) : (s.visit k v t).Sound := by
  obtain ⟨before, after, hwalks, htake, hset⟩ := exists_around hv
  have hwalks' : (s.visit k v t).walks = before ++
      { v with next := v.next + 1, early := v.early || s.overtakes k v } :: after := hset _
  have hlength : (s.visit k v t).wall.tiles.length = s.wall.tiles.length := by
    simp [Traffic.visit, Wall.setOutput, Wall.setTile]
  have hvlen : v.next < s.wall.tiles.length := (List.getElem?_eq_some_iff.1 ht).1
  -- calls only ever get further
  have hkept : ∀ u ∈ s.walks, ∃ u' ∈ (s.visit k v t).walks, u'.author = u.author ∧
      u'.call = u.call ∧ (u'.early = false → u.early = false) := by
    intro u hu
    rw [hwalks] at hu
    rw [hwalks']
    rcases List.mem_append.1 hu with hu | hu
    · exact ⟨u, List.mem_append_left _ hu, rfl, rfl, id⟩
    · rcases List.mem_cons.1 hu with rfl | hu
      · exact ⟨_, List.mem_append_right _ List.mem_cons_self, rfl, rfl, fun he =>
          (Bool.or_eq_false_iff.1 he).1⟩
      · exact ⟨u, List.mem_append_right _ (List.mem_cons_of_mem _ hu), rfl, rfl, id⟩
  have hlistened : (s.visit k v t).listened = s.listened := by
    rw [listened, listened, hwalks, hwalks']
    simp
  refine ⟨?_, ?_, ?_, ?_⟩
  · intro c hc a horder i u l hu hl
    obtain ⟨u, m, hu, hm, -, rfl⟩ := exists_of_visit hu hl
    have hold := h.word_eq c hc a (fun w hw hsays => by
      obtain ⟨w', hw', -, hcall, hearly⟩ := hkept w hw
      exact hearly (horder w' hw' (hcall ▸ hsays))) i u m hu hm
    rw [hlistened, ← hold]
    by_cases hi : v.next = i
    · subst hi
      rw [if_pos rfl]
      refine word_visit hwalks hwalks' ?_ u.output.pipe m
      intro w hw hle x y hx hy
      have hmem : { v with next := v.next + 1, early := v.early || s.overtakes k v } ∈
          (s.visit k v t).walks := by
        rw [hwalks']
        exact List.mem_append_right _ List.mem_cons_self
      have hearly := horder _ hmem (Option.isSome_iff_exists.2 ⟨y, hy⟩)
      have hover := (Bool.or_eq_false_iff.1 hearly).2
      rw [overtakes, htake, List.any_eq_false] at hover
      have hagree := hover w hw
      rw [Bool.and_eq_true, decide_eq_true_eq, not_and] at hagree
      by_contra hne
      exact hagree hle (Fanout.contradicts_iff.2 ⟨a, x, y, hx, hy, hne⟩)
    · rw [if_neg hi]
      exact word_visit_of_ne hwalks hwalks' hi m
  · intro i u l hu hl hcall
    obtain ⟨u', m, hu', hm, hpipe, rfl⟩ := exists_of_visit hu hl
    have hold := h.display_eq i u' m hu' hm
    rw [hpipe]
    by_cases hi : v.next = i
    · rw [if_pos hi] at hcall ⊢
      exact v.call.display_applyLoop hold hcall
    · rw [if_neg hi] at hcall ⊢
      exact hold hcall
  · intro w hw hearly
    have hcontra : ∀ w₀ ∈ s.walks, w.author = w₀.author → w.call = w₀.call → w₀.early = true →
        ∃ u ∈ (s.visit k v t).walks, u.author ≠ w.author ∧ u.call.contradicts w.call = true := by
      intro w₀ hw₀ hauthor hcall hearly₀
      obtain ⟨u, hu, hne, hcon⟩ := h.contradicted w₀ hw₀ hearly₀
      obtain ⟨u', hu', hauthor', hcall', -⟩ := hkept u hu
      exact ⟨u', hu', by rw [hauthor', hauthor]; exact hne, by rw [hcall', hcall]; exact hcon⟩
    rw [hwalks'] at hw
    rcases List.mem_append.1 hw with hw | hw
    · exact hcontra w (hwalks ▸ List.mem_append_left _ hw) rfl rfl hearly
    · rcases List.mem_cons.1 hw with rfl | hw
      · rcases Bool.or_eq_true_iff.1 hearly with hold | hover
        · exact hcontra v (List.mem_of_getElem? hv) rfl rfl hold
        · obtain ⟨u, hu, hcon⟩ := List.any_eq_true.1 hover
          rw [Bool.and_eq_true, decide_eq_true_eq] at hcon
          obtain ⟨k', hk', rfl⟩ := List.getElem_of_mem hu
          rw [List.length_take] at hk'
          have hk₁ : k' < k := by omega
          have hget : s.walks[k']? = some (s.walks.take k)[k'] := by
            rw [List.getElem_take]
            exact List.getElem?_eq_getElem _
          have hne := h.author_ne hget hv (Nat.ne_of_lt hk₁) (Nat.lt_of_le_of_lt hcon.1 hvlen) hvlen
          obtain ⟨u', hu', hauthor, hcall, -⟩ := hkept _ (List.mem_of_getElem? hget)
          exact ⟨u', hu', by rw [hauthor]; exact hne, by rw [hcall]; exact hcon.2⟩
      · exact hcontra w (hwalks ▸ List.mem_append_right _ (List.mem_cons_of_mem _ hw)) rfl rfl
          hearly
  · intro k' w hw hlt
    rw [hlength] at hlt
    have hfirst : s.threads[w.author]?.bind List.head? = some (.walk k') := by
      by_cases hk : k = k'
      · subst hk
        have hself : (s.visit k v t).walks[k]? =
            some { v with next := v.next + 1, early := v.early || s.overtakes k v } :=
          List.getElem?_set_self (List.getElem?_eq_some_iff.1 hv).1
        rw [hself] at hw
        cases hw
        exact h.first k v hv hvlen
      · have hold : s.walks[k']? = some w := by
          rw [← hw]
          exact (List.getElem?_set_ne hk).symm
        exact h.first k' w hold hlt
    obtain ⟨ts, hts, -⟩ := Option.bind_eq_some_iff.1 hfirst
    have happend : (s.visit k v t).threads[w.author]? = s.threads[w.author]? :=
      List.getElem?_append_left (List.getElem?_eq_some_iff.1 hts).1
    rw [happend]
    exact hfirst

/-! ### Any moves -/

theorem Sound.step (h : s.Sound) (hs : s.Step s') : s'.Sound := by
  cases hs with
  | idle => exact h
  | begin hj op => exact h.begin hj op
  | commit hj hw => exact h.commit hj hw
  | visit hj hv ht => exact h.visit hv ht
  | dispose hj hop hwalk mark => exact h.dispose hj hop hwalk mark

theorem Sound.moves (h : s.Sound) (ms : List Move) : (s.moves ms).Sound := by
  induction ms generalizing s with
  | nil => exact h
  | cons m ms ih => exact ih (h.step (s.step_move m))

/-- Calls that the same thread makes come in order. -/
theorem Sound.inOrder (h : s.Sound) (hauthor : ∀ u ∈ s.walks, ∀ v ∈ s.walks,
    (u.call.says? a).isSome = true → (v.call.says? a).isSome = true → u.author = v.author) :
    s.InOrder a := by
  intro v hv hsays
  by_contra hearly
  obtain ⟨u, hu, hne, hcon⟩ := h.contradicted v hv (eq_true_of_ne_false hearly)
  obtain ⟨b, x, y, hx, hy, -⟩ := Fanout.contradicts_iff.1 hcon
  obtain ⟨z, hz⟩ := Option.isSome_iff_exists.1 hsays
  obtain rfl : a = b := Fanout.aspect_unique hz hy
  exact hne (hauthor u hu v hv (Option.isSome_iff_exists.2 ⟨x, hx⟩) hsays)

/-- Registrations always come in order, whoever makes them. -/
theorem Sound.inOrder_calling (h : s.Sound) : s.InOrder .calling := by
  intro v hv hsays
  by_contra hearly
  obtain ⟨u, -, -, hcon⟩ := h.contradicted v hv (eq_true_of_ne_false hearly)
  obtain ⟨b, x, y, hx, hy, hxy⟩ := Fanout.contradicts_iff.1 hcon
  obtain ⟨z, hz⟩ := Option.isSome_iff_exists.1 hsays
  obtain rfl : .calling = b := Fanout.aspect_unique hz hy
  rw [Fanout.eq_true_of_says?_calling hx, Fanout.eq_true_of_says?_calling hy] at hxy
  exact hxy rfl

/-- When no call is on its way to an output any more, the word is what the loop there is. -/
theorem word_eq_of_through {i : Nat} (h : ∀ v ∈ s.walks, i < v.next) (l : Vblank.Loop Unit) :
    s.word a i l = a.ofLoop l := by
  have hnone : s.heading a i = [] := by
    refine List.filterMap_eq_nil_iff.2 fun v hv => ?_
    rw [if_neg (Nat.not_le_of_lt (h v hv))]
  rw [word, hnone]
  rfl

end Traffic

/-! ### From a new wall on -/

/-- Nobody has touched the loop yet. -/
structure Vblank.Loop.IsNew (l : Vblank.Loop Unit) : Prop where
  running_eq : l.running = false
  enabled_eq : l.enabled = false
  callback_eq : l.callback = none

/-- Controller and loops that are new. -/
theorem Traffic.sound_create {outputs : List Output}
    (hnew : ∀ o ∈ outputs, ∀ l, o.loop = some l → l.IsNew) (policy : Policy) (threads : Nat) :
    (Traffic.create outputs policy threads).Sound := by
  have hloop : ∀ (i : Nat) (t : Tile) (l : Vblank.Loop Unit),
      (Wall.create outputs policy).tiles[i]? = some t → t.output.loop = some l → l.IsNew := by
    intro i t l ht hl
    rw [Wall.create, List.getElem?_map] at ht
    obtain ⟨o, ho, rfl⟩ := Option.map_eq_some_iff.1 ht
    exact hnew o (List.mem_of_getElem? ho) l hl
  refine ⟨?_, ?_, ?_, ?_⟩
  · rintro c ⟨⟩ a - i t l ht hl
    obtain ⟨hr, he, hcb⟩ := hloop i t l ht hl
    cases a with
    | running => exact hr
    | forwarding => exact he
    | calling => exact congrArg Option.isSome hcb
  · intro i t l ht hl hcall
    rw [(hloop i t l ht hl).callback_eq] at hcall
    cases hcall
  · intro v hv
    cases hv
  · intro k v hv
    cases hv

/-- What a loop has from a controller that has been listened to, or not: it runs while the
    controller is fully powered, forwards while vsync is enabled, and calls the controller under the
    given pipe once somebody has listened for vsync. -/
structure Vblank.Loop.Follows (l : Vblank.Loop Unit) (c : Controller) (listened : Bool)
    (pipe : Nat) : Prop where
  running_eq : l.running = c.power.isOn
  enabled_eq : l.enabled = c.vsyncEnabled
  callback_eq : l.callback.isSome = listened
  display_eq : listened = true → l.display = ⟨pipe⟩

/-- All loops follow the controller. -/
def Wall.Follow (w : Wall) (c : Controller) (listened : Bool) : Prop :=
  ∀ t ∈ w.tiles, ∀ l, t.output.loop = some l → l.Follows c listened t.output.pipe

namespace Traffic

variable {s : Traffic} {c : Controller}

theorem Sound.follow (h : s.Sound) (hc : s.wall.controller = some c)
    (hthrough : ∀ v ∈ s.walks, s.wall.tiles.length ≤ v.next) (hrunning : s.InOrder .running)
    (hforwarding : s.InOrder .forwarding) : s.wall.Follow c s.listened := by
  intro t ht l hl
  obtain ⟨i, hi, rfl⟩ := List.getElem_of_mem ht
  have hget := List.getElem?_eq_getElem hi
  have hloop : ∀ a, s.InOrder a → a.ofLoop l = a.ofController c s.listened := fun a ha => by
    rw [← h.word_eq c hc a ha i _ l hget hl]
    exact (word_eq_of_through (fun v hv => Nat.lt_of_lt_of_le hi (hthrough v hv)) l).symm
  have hcall : l.callback.isSome = s.listened := hloop .calling h.inOrder_calling
  exact ⟨hloop .running hrunning, hloop .forwarding hforwarding, hcall,
    fun hlistened => h.display_eq i _ l hget hl (hcall.trans hlistened)⟩

/-- To ask for the vsync state that already holds changes nothing on the wall and makes no call. -/
theorem turn_control_self (hc : s.wall.controller = some c) {j : Nat} {rest : List Chore}
    (hj : s.threads[j]? = some (.task (.perform (.control c.vsyncEnabled)) :: rest)) (mark : Nat) :
    (s.turn j mark).wall = s.wall ∧ (s.turn j mark).walks = s.walks := by
  have hnone := Wall.commit?_control_self hc
  obtain ⟨reply, he⟩ := Wall.begin_of_commit?_eq_none mark rfl hnone
  have hturn : s.turn j mark =
      s.dispose j mark (.task (.perform (.control c.vsyncEnabled))) rest := by
    rw [turn, hj]
    simp [commit?, visit?, hnone]
  rw [hturn]
  exact ⟨congrArg Effect.wall he, rfl⟩

/-- What loops have from the controller `c` while threads act. The last call on its way to an
    output, or else the loop there, is as the controller says, if calls come in order; those that
    one thread makes do, and so do all registrations. When no call is on its way any more, and those
    for power and vsync have come in order, all loops follow the controller. To ask for the vsync
    state that already holds changes neither the cycle nor a loop. -/
structure Mirrors (s : Traffic) (c : Controller) : Prop where
  word_eq : ∀ a, s.InOrder a → ∀ (i : Nat) (t : Tile) (l : Vblank.Loop Unit),
    s.wall.tiles[i]? = some t → t.output.loop = some l →
      s.word a i l = a.ofController c s.listened
  display_eq : ∀ (i : Nat) (t : Tile) (l : Vblank.Loop Unit), s.wall.tiles[i]? = some t →
    t.output.loop = some l → l.callback.isSome = true → l.display = ⟨t.output.pipe⟩
  alone : ∀ a, (∀ u ∈ s.walks, ∀ v ∈ s.walks, (u.call.says? a).isSome = true →
    (v.call.says? a).isSome = true → u.author = v.author) → s.InOrder a
  calling : s.InOrder .calling
  follow : (∀ v ∈ s.walks, s.wall.tiles.length ≤ v.next) → s.InOrder .running →
    s.InOrder .forwarding → s.wall.Follow c s.listened
  repeated : ∀ (j : Nat) (rest : List Chore),
    s.threads[j]? = some (.task (.perform (.control c.vsyncEnabled)) :: rest) → ∀ mark,
      (s.turn j mark).wall = s.wall ∧ (s.turn j mark).walks = s.walks

theorem Sound.mirrors (h : s.Sound) (hc : s.wall.controller = some c) : s.Mirrors c where
  word_eq := h.word_eq c hc
  display_eq := h.display_eq
  alone _ := h.inOrder
  calling := h.inOrder_calling
  follow := h.follow hc
  repeated _ _ hj mark := turn_control_self hc hj mark

/-- Without anybody else, calls have come in order and are through. -/
theorem IsSettled.follow (h : s.IsSettled) (hs : s.Sound) (hc : s.wall.controller = some c) :
    s.wall.Follow c s.listened :=
  hs.follow hc (fun v hv => (h v hv).1) (fun v hv _ => (h v hv).2) fun v hv _ => (h v hv).2

end Traffic

/-- Loops hear from their controller, whatever threads do: once all calls are through, every loop
    runs while the controller is fully powered, forwards while vsync is enabled, and calls the
    controller under the pipe of its own output once somebody has ever listened for vsync, unless a
    call came to an output ahead of an earlier one of another thread that says otherwise. When
    operations are performed one after another, with all that they cause, that is so at every step,
    and to ask for the vsync state that already holds changes nothing at all. -/
theorem Traffic.loops_follow {outputs : List Output}
    (hnew : ∀ o ∈ outputs, ∀ l, o.loop = some l → l.IsNew) (policy : Policy) :
    (∀ (threads : Nat) (ms : List Move) (c : Controller),
      let s := (Traffic.create outputs policy threads).moves ms
      s.wall.controller = some c → s.Mirrors c) ∧
    ∀ (n : Noted Bool) (c : Controller), (Wall.create outputs policy).Brings Wall.listened false n →
      n.run.wall.controller = some c →
      n.run.wall.Follow c n.notes ∧
      (∃ ms, let s := (Traffic.create outputs policy 1).moves ms
        s.wall = n.run.wall ∧ s.listened = n.notes ∧ s.IsSettled) ∧
      n.run.begin (.control c.vsyncEnabled) = n.run.doing [] := by
  refine ⟨fun threads ms c hc => ((sound_create hnew policy threads).moves ms).mirrors hc, ?_⟩
  intro n c h hc
  obtain ⟨ms, hwall, hlistened, hsettled⟩ := h.exists_moves
  have hsound := (sound_create hnew policy 1).moves ms
  refine ⟨?_, ⟨ms, hwall, hlistened, hsettled⟩, ?_⟩
  · rw [← hwall, ← hlistened]
    exact hsettled.follow hsound (hwall ▸ hc)
  · obtain ⟨reply, he⟩ := Wall.begin_of_commit?_eq_none n.run.events.length rfl
      (Wall.commit?_control_self hc)
    rw [Run.begin, he]
    simp [Run.incur, Run.doing]

/-- Two outputs with new loops; the second one is not plugged in, so every flip of the first one
    makes a vsync. -/
def twoLoops : List Output :=
  [{ loop := some { pipe := 0 } }, { pipe := 1, connected := false, loop := some { pipe := 1 } }]

/-- A reading with a single flip. -/
def oneFlip : Vblank.Reading := .bytes ((⟨0, 10, 0, 0, 0⟩ : Drm.Flip).encode 2)

/-- The first vsync has its listener disable vsync. -/
def disabling : Noted Bool :=
  [.listen .vsync ⟨9⟩ "host" [.control false] 1, .control true, .setPowerMode .on,
    .vsyncUpdate 10].foldl (Noted.perform Wall.listened) ⟨(Wall.create twoLoops {}).resting, false⟩

/-- A thread takes some turns. -/
def turns (thread n : Nat) : List Traffic.Move := .replicate n (.turn thread 0)

/-- A power mode comes to the first output, and its loop is started. A flip has been waiting for it,
    and the listener disables vsync at both outputs before the second one is powered, too. -/
def powering : Traffic :=
  (Traffic.create twoLoops {} 2).moves <|
    .begin 0 (.listen .vsync ⟨9⟩ "host" [.control false] 1) :: turns 0 5 ++
      .begin 0 (.control true) :: turns 0 5 ++ .begin 1 (.feed 0 [oneFlip]) :: turns 1 4 ++
      .begin 0 (.setPowerMode .on) :: turns 0 2 ++ turns 2 12 ++ turns 0 3 ++ turns 3 1

/-- Loops follow when a loop has interfered with a power mode, and after a run one step at a
    time. -/
theorem loops_follow_powering :
    (∃ c, powering.wall.controller = some c ∧ c.power = .on ∧ c.vsyncEnabled = false ∧
      powering.wall.Follow c true) ∧
    (Wall.create twoLoops {}).Brings Wall.listened false disabling ∧
    ∃ c, disabling.run.wall.controller = some c ∧ c.power = .on ∧ c.vsyncEnabled = false ∧
      disabling.run.wall.Follow c true := by
  have hnew : ∀ o ∈ twoLoops, ∀ l, o.loop = some l → l.IsNew := by
    simp only [twoLoops, List.mem_cons, List.not_mem_nil, or_false]
    rintro o (rfl | rfl) l hl <;> cases hl <;> exact ⟨rfl, rfl, rfl⟩
  have hbrings : (Wall.create twoLoops {}).Brings Wall.listened false disabling := by
    refine (((Wall.Brings.start.perform rfl _).perform ?_ _).perform ?_ _).perform ?_ _
    all_goals decide +kernel
  obtain ⟨htraffic, hruns⟩ := Traffic.loops_follow hnew {}
  refine ⟨?_, hbrings, ?_⟩
  · obtain ⟨c, hc, hpower, henabled⟩ : ∃ c, powering.wall.controller = some c ∧ c.power = .on ∧
        c.vsyncEnabled = false := by
      have hmap : powering.wall.controller.map (fun c => (c.power, c.vsyncEnabled)) =
          some (.on, false) := by decide +kernel
      obtain ⟨c, hc, heq⟩ := Option.map_eq_some_iff.1 hmap
      exact ⟨c, hc, congrArg (·.1) heq, congrArg (·.2) heq⟩
    have hlistened : powering.listened = true := by decide +kernel
    have hfollow := (htraffic 2 _ c hc).follow (by decide +kernel) (by decide +kernel)
      (by decide +kernel)
    exact ⟨c, hc, hpower, henabled, hlistened ▸ hfollow⟩
  · obtain ⟨c, hc, hpower, henabled⟩ : ∃ c, disabling.run.wall.controller = some c ∧
        c.power = .on ∧ c.vsyncEnabled = false := by
      have hmap : disabling.run.wall.controller.map (fun c => (c.power, c.vsyncEnabled)) =
          some (.on, false) := by decide +kernel
      obtain ⟨c, hc, heq⟩ := Option.map_eq_some_iff.1 hmap
      exact ⟨c, hc, congrArg (·.1) heq, congrArg (·.2) heq⟩
    have hnotes : disabling.notes = true := by decide +kernel
    exact ⟨c, hc, hpower, henabled, hnotes ▸ (hruns disabling c hbrings hc).1⟩

/-- A host enables vsync and has come to the first output only when a flip arrives there. The
    listener disables vsync at both outputs. Then the host comes to the second one. -/
def crossing : Traffic :=
  (Traffic.create twoLoops {} 2).moves <|
    .begin 0 (.listen .vsync ⟨9⟩ "host" [.control false] 1) :: turns 0 5 ++
      .begin 0 (.setPowerMode .on) :: turns 0 5 ++ turns 2 1 ++ turns 3 1 ++
      .begin 0 (.control true) :: turns 0 2 ++ .begin 1 (.feed 0 [oneFlip]) :: turns 1 15 ++
      turns 0 3

/-- In the end, nobody has anything left to do and all calls are through, but the loop of the second
    output forwards while vsync is disabled. -/
theorem forwards_while_disabled :
    crossing.threads.all List.isEmpty = true ∧
    (∀ v ∈ crossing.walks, crossing.wall.tiles.length ≤ v.next) ∧
    ∃ c, crossing.wall.controller = some c ∧ c.power = .on ∧ c.vsyncEnabled = false ∧
      crossing.wall.loops.map (fun l => (l.running, l.enabled)) = [(true, false), (true, true)] ∧
      ¬ crossing.wall.Follow c crossing.listened := by
  have hmap : crossing.wall.controller.map (fun c => (c.power, c.vsyncEnabled)) =
      some (.on, false) := by decide +kernel
  obtain ⟨c, hc, heq⟩ := Option.map_eq_some_iff.1 hmap
  have henabled : c.vsyncEnabled = false := congrArg (·.2) heq
  refine ⟨by decide +kernel, by decide +kernel, c, hc, congrArg (·.1) heq, henabled,
    by decide +kernel, fun hfollow => ?_⟩
  have hsecond : (crossing.wall.tiles[1]?.bind (·.output.loop)).map (·.enabled) = some true := by
    decide +kernel
  obtain ⟨l, hl, hforwards⟩ := Option.map_eq_some_iff.1 hsecond
  obtain ⟨t, ht, hloop⟩ := Option.bind_eq_some_iff.1 hl
  have hdisabled := (hfollow t (List.mem_of_getElem? ht) l hloop).enabled_eq
  rw [hforwards, henabled] at hdisabled
  cases hdisabled

end VideoWall
