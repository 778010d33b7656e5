import Mathlib.Data.List.Induction
import VideoWall.Proofs.Forwarding

/-! The intervals between flips.

    The tracker of a loop could overflow on some pairs of times, so what matters is where the time
    that it holds comes from. A `Gauge` reads the events of a session, and nothing else: it knows
    what is in force, the last flip since something changed that ends an interval, and the interval
    that has to be reported next. `Gauge.last_afterAll` says which flip that is, and
    `Gauge.Reports.of_flipped` and `Gauge.Reports.of_pageFlip` what follows a flip and what comes
    before a report, for any events that report as they should. `Session.measures_foldl_move` says
    that the events of a session do, and that its tracker holds what the gauge reads;
    `Session.measures` puts it together. -/

namespace VideoWall

/-! ### Times of flips -/

/-- Whether a time fits its range. -/
def Limits.IsTime (x : Int) : Prop := minTime ≤ x ∧ x ≤ maxTime

/-- No step on the way to the time of a flip leaves the range. -/
theorem isTime_flipTime (seconds micros : UInt32) :
    Limits.IsTime ((seconds.toNat : Int) * 1000000000) ∧
      Limits.IsTime ((micros.toNat : Int) * 1000) ∧ Limits.IsTime (flipTime seconds micros) := by
  have hs := seconds.toNat_lt
  have hm := micros.toNat_lt
  simp only [Limits.IsTime, Limits.minTime, Limits.maxTime, flipTime]
  omega

/-- Times of flips are ordered as their seconds are, and within a second as their microseconds,
    of which there are less than a million. -/
theorem flipTime_lt_iff {s m s' m' : UInt32} (hm : m.toNat < 1000000) (hm' : m'.toNat < 1000000) :
    flipTime s m < flipTime s' m' ↔ s < s' ∨ s = s' ∧ m < m' := by
  rw [flipTime, flipTime, UInt32.lt_iff_toNat_lt, UInt32.lt_iff_toNat_lt, ← UInt32.toNat_inj]
  omega

namespace Vblank

/-! ### Events that end an interval -/

/-- An interval as it is reported: the controller that flipped, and the microseconds since its flip
    before. -/
def Remark.interval? : Remark → Option (Option UInt32 × Int)
  | .pageFlip crtc micros => some (crtc, micros)
  | _ => none

/-- The interval that an event reports. -/
def Event.interval? : Event → Option (Option UInt32 × Int)
  | .remark r => r.interval?
  | _ => none

namespace Target

/-- Whether an event ends every interval: a callback is registered, or forwarding is switched to
    what does not hold yet. -/
def resets (t : Target) : Event → Bool
  | .registered .. => true
  | .switched enabled => enabled != t.enabled
  | _ => false

/-- Nothing among some events ends an interval. -/
def Lasts : Target → List Event → Prop
  | _, [] => True
  | t, e :: es => t.resets e = false ∧ Lasts (t.after e) es

theorem lasts_append (t : Target) (es fs : List Event) :
    t.Lasts (es ++ fs) ↔ t.Lasts es ∧ (t.afterAll es).Lasts fs := by
  induction es generalizing t with
  | nil => simp [Lasts, afterAll]
  | cons e es ih => simp [Lasts, ih, afterAll, and_assoc]

end Target

/-- Among some events there is a completed flip at `t`, no other comes after it, and nothing after
    it ends an interval. -/
def LastFlip (es : List Event) (t : Int) : Prop :=
  ∃ before f rest, es = before ++ .flipped f :: rest ∧ f.time = t ∧
    (∀ e ∈ rest, e.flip? = none) ∧ (Target.afterAll {} before).Lasts rest

theorem not_lastFlip_nil (t : Int) : ¬ LastFlip [] t := by
  rintro ⟨before, f, rest, hnil, -⟩
  simp at hnil

/-- With one more event, the last flip is that event, or the last one before it. -/
theorem lastFlip_concat (es : List Event) (e : Event) (t : Int) :
    LastFlip (es ++ [e]) t ↔ e.flip?.map Drm.Flip.time = some t ∨
      e.flip? = none ∧ (Target.afterAll {} es).resets e = false ∧ LastFlip es t := by
  constructor
  · rintro ⟨before, f, rest, hes, ht, hnone, hlasts⟩
    rcases List.eq_nil_or_concat rest with rfl | ⟨rest, x, rfl⟩
    · obtain ⟨rfl, he⟩ := List.append_inj' hes rfl
      obtain rfl : e = .flipped f := by simpa using he
      exact .inl (congrArg some ht)
    · rw [List.concat_eq_append] at hes hnone hlasts
      rw [← List.cons_append, ← List.append_assoc] at hes
      obtain ⟨rfl, he⟩ := List.append_inj' hes rfl
      obtain rfl : e = x := by simpa using he
      rw [Target.lasts_append] at hlasts
      obtain ⟨hlasts, hresets, -⟩ := hlasts
      refine .inr ⟨hnone e (by simp), ?_, before, f, rest, rfl, ht, ?_, hlasts⟩
      · rw [Target.afterAll_append]
        exact hresets
      · exact fun x hx => hnone x (List.mem_append_left _ hx)
  · rintro (hf | ⟨hnone, hresets, before, f, rest, rfl, ht, hflips, hlasts⟩)
    · cases e with
      | flipped f =>
        exact ⟨es, f, [], rfl, Option.some.inj hf, List.forall_mem_nil _, trivial⟩
      | _ => cases hf
    · refine ⟨before, f, rest ++ [e], by simp, ht, ?_, ?_⟩
      · exact List.forall_mem_append.2 ⟨hflips, List.forall_mem_singleton.2 hnone⟩
      · rw [Target.afterAll_append] at hresets
        exact (Target.lasts_append ..).2 ⟨hlasts, hresets, trivial⟩

/-! ### A gauge -/

/-- What the events so far say of intervals: what is in force, when the last flip was that an
    interval can begin with, and the interval that is to be reported at once. -/
structure Gauge where
  target : Target := {}
  last : Option Int := none
  due : Option (Option UInt32 × Int) := none

namespace Gauge

/-- The interval that a flip ends. -/
def ended? (g : Gauge) (f : Drm.Flip) : Option (Option UInt32 × Int) :=
  g.last.map fun t => (f.crtc?, (f.time - t).tdiv 1000)

/-- The gauge after an event. -/
def after (g : Gauge) (e : Event) : Gauge where
  target := g.target.after e
  last := if g.target.resets e then none else (e.flip?.map Drm.Flip.time).or g.last
  due := e.flip?.bind g.ended?

/-- The gauge after some events. -/
def afterAll (g : Gauge) (es : List Event) : Gauge := es.foldl after g

/-- Some events report every interval that is due when it is due, and no other. -/
def Reports : Gauge → List Event → Prop
  | _, [] => True
  | g, e :: es => e.interval? = g.due ∧ Reports (g.after e) es

variable (g : Gauge) (es fs : List Event)

theorem afterAll_append : g.afterAll (es ++ fs) = (g.afterAll es).afterAll fs :=
  List.foldl_append

theorem reports_append : g.Reports (es ++ fs) ↔ g.Reports es ∧ (g.afterAll es).Reports fs := by
  induction es generalizing g with
  | nil => simp [Reports, afterAll]
  | cons e es ih => simp [Reports, ih, afterAll, and_assoc]

theorem target_afterAll : (g.afterAll es).target = g.target.afterAll es := by
  induction es generalizing g with
  | nil => rfl
  | cons e es ih => exact ih (g.after e)

/-- Whatever the events are, a gauge knows when the last flip was. -/
theorem last_afterAll (t : Int) : (afterAll {} es).last = some t ↔ LastFlip es t := by
  induction es using List.reverseRecOn with
  | nil => exact iff_of_false (fun h => by cases h) (not_lastFlip_nil t)
  | append_singleton es e ih =>
    have hlast : (afterAll {} (es ++ [e])).last =
        if (Target.afterAll {} es).resets e then none
        else (e.flip?.map Drm.Flip.time).or (afterAll {} es).last := by
      rw [afterAll_append, ← target_afterAll {} es]
      rfl
    rw [hlast, lastFlip_concat, ← ih]
    -- an event that is a flip ends no interval
    cases e <;> simp [Event.flip?, Target.resets]

/-- Only times of flips are ever known. -/
theorem timely_afterAll : FrameInterval.Timely ⟨(afterAll {} es).last⟩ := by
  intro t ht
  obtain ⟨before, f, rest, -, rfl, -⟩ := (last_afterAll es t).1 ht
  exact flipTime_mem f.seconds f.micros

variable {g es}

/-- An interval is due only right after the flip that ends it. -/
theorem of_due_eq_some {d : Option UInt32 × Int} (h : (afterAll {} es).due = some d) :
    ∃ earlier f, es = earlier ++ [.flipped f] ∧ (afterAll {} earlier).ended? f = some d := by
  rcases List.eq_nil_or_concat es with rfl | ⟨earlier, e, rfl⟩
  · cases h
  · rw [List.concat_eq_append] at h ⊢
    rw [afterAll_append] at h
    cases e with
    | flipped f => exact ⟨earlier, f, rfl, h⟩
    | _ => cases h

namespace Reports

variable {before rest : List Event} {f : Drm.Flip} {crtc : Option UInt32} {micros : Int}

/-- A flip is followed at once by the report of the interval that it ends, if it ends one. -/
theorem of_flipped (h : Reports {} (before ++ .flipped f :: rest))
    (hdue : (afterAll {} (before ++ .flipped f :: rest)).due = none) :
    rest.head?.bind Event.interval? = (afterAll {} before).ended? f := by
  rw [reports_append] at h
  obtain ⟨-, -, hrest⟩ := h
  cases rest with
  | nil =>
    rw [afterAll_append] at hdue
    exact hdue.symm
  | cons e rest => exact hrest.1

/-- A report stands right behind the flip that ends the interval. -/
theorem of_pageFlip (h : Reports {} (before ++ .remark (.pageFlip crtc micros) :: rest)) :
    ∃ earlier f t, before = earlier ++ [.flipped f] ∧ LastFlip earlier t ∧
      crtc = f.crtc? ∧ micros = (f.time - t).tdiv 1000 := by
  rw [reports_append] at h
  obtain ⟨-, hreport, -⟩ := h
  obtain ⟨earlier, f, rfl, hended⟩ := of_due_eq_some hreport.symm
  obtain ⟨t, hlast, hd⟩ := Option.map_eq_some_iff.1 hended
  obtain ⟨hcrtc, hmicros⟩ := Prod.mk.inj hd
  exact ⟨earlier, f, t, rfl, (last_afterAll earlier t).1 hlast, hcrtc.symm, hmicros.symm⟩

end Reports

end Gauge

/-! ### What a session reports -/

namespace Session

/-- What a gauge has to know of a session. -/
def gauge (s : Session) : Gauge := { target := s.loop.target, last := s.loop.interval.last }

/-- A session comes from `s` to `s'` with events that report as they should, and its tracker keeps
    to what a gauge reads in them. -/
def Measures (s s' : Session) : Prop :=
  ∃ es, s'.events = s.events ++ es ∧ s'.gauge = s.gauge.afterAll es ∧ s.gauge.Reports es

variable {s s' s'' : Session}

theorem Measures.refl (s : Session) : s.Measures s :=
  ⟨[], (List.append_nil _).symm, rfl, trivial⟩

theorem Measures.trans (h : s.Measures s') (h' : s'.Measures s'') : s.Measures s'' := by
  obtain ⟨es, he, hg, hr⟩ := h
  obtain ⟨fs, he', hg', hr'⟩ := h'
  refine ⟨es ++ fs, ?_, ?_, ?_⟩
  · rw [he', he, List.append_assoc]
  · rw [hg', hg, Gauge.afterAll_append]
  · rw [hg] at hr'
    exact (Gauge.reports_append ..).2 ⟨hr, hr'⟩

/-- One event that reports nothing. -/
theorem measures_event {e : Event} (hi : e.interval? = none) (he : s'.events = s.events ++ [e])
    (hg : s'.gauge = s.gauge.after e) : s.Measures s' :=
  ⟨[e], he, hg, hi, trivial⟩

/-- Other remarks than reports. -/
theorem measures_remarks (s : Session) {rs : List Remark} (h : ∀ r ∈ rs, r.interval? = none) :
    s.Measures (s.remarks rs) := by
  induction rs generalizing s with
  | nil =>
    have hnil : s.remarks [] = s := by simp [remarks, emit]
    rw [hnil]
    exact .refl s
  | cons r rs ih =>
    obtain ⟨hr, hrs⟩ := List.forall_mem_cons.1 h
    have hcons : s.remarks (r :: rs) = (s.remarks [r]).remarks rs := by simp [remarks, emit]
    have hfirst : s.Measures (s.remarks [r]) := measures_event (e := .remark r) hr rfl rfl
    rw [hcons]
    exact hfirst.trans (ih _ hrs)

/-- A switch to what holds already leaves the loop alone. -/
theorem loop_apply_control_self (s : Session) :
    (s.apply (.control s.loop.enabled)).loop = s.loop := by
  simp [apply, Loop.control, remarks, emit]

theorem measures_apply (s : Session) (c : Change) : s.Measures (s.apply c) := by
  cases c with
  | register display script limit =>
    exact measures_event (e := .registered s.hooks.length display) rfl rfl rfl
  | idle tag script limit => exact ⟨[], (List.append_nil _).symm, rfl, trivial⟩
  | control enabled =>
    by_cases h : s.loop.enabled = enabled
    · subst h
      have hloop : (s.apply (.control s.loop.enabled)).gauge = s.gauge := by
        rw [gauge, loop_apply_control_self, gauge]
      refine measures_event (e := .switched s.loop.enabled) rfl ?_ ?_
      · simp [apply, Loop.control, remarks, emit]
      · rw [hloop]
        simp [Gauge.after, gauge, Target.resets, Target.after, Loop.target, Event.flip?]
    · have hcontrol : s.loop.control enabled =
          ({ s.loop with enabled, interval := s.loop.interval.reset },
            [.forwardingChanged enabled]) := if_neg h
      have hresets : s.loop.target.resets (.switched enabled) = true := by
        simp [Target.resets, Loop.target, Ne.symm h]
      rw [apply, hcontrol]
      have hswitch : s.Measures
          ({ s with loop := { s.loop with enabled, interval := s.loop.interval.reset } }.emit
            [.switched enabled]) := by
        refine measures_event rfl rfl ?_
        rw [Gauge.after, gauge, gauge, hresets]
        rfl
      exact hswitch.trans (measures_remarks _ (List.forall_mem_singleton.2 rfl))

theorem measures_script (s : Session) (script : List Change) :
    s.Measures (script.foldl apply s) := by
  induction script generalizing s with
  | nil => exact .refl s
  | cons c script ih => exact (s.measures_apply c).trans (ih _)

theorem measures_perform (s : Session) (id : Nat) : s.Measures (s.perform id) := by
  rw [perform]
  split
  · next tag script left _ =>
    exact measures_script { s with hooks := s.hooks.set id { tag, script, left } } script
  · exact .refl s

theorem measures_begin (s : Session) : s.Measures s.begin := by
  have hi : s.Measures (s.emit [.iteration]) := measures_event rfl rfl rfl
  unfold begin
  dsimp only
  split
  · exact hi
  · next id _ =>
    exact (hi.trans (measures_event rfl rfl rfl)).trans (measures_perform _ id)

/-- A flip and what is reported about it. -/
theorem measures_flipped (s : Session) (f : Drm.Flip) :
    s.Measures (({ s with loop := { s.loop with interval := ⟨some f.time⟩ } }.emit
      [.flipped f]).remarks (s.loop.report f)) := by
  refine ⟨.flipped f :: (s.loop.report f).map .remark, by simp [remarks, emit], ?_⟩
  cases hlast : s.loop.interval.last with
  | none =>
    have hgauge : s.gauge = { target := s.loop.target } := by rw [gauge, hlast]
    rw [Loop.report, hlast, hgauge]
    exact ⟨rfl, rfl, trivial⟩
  | some t =>
    have hgauge : s.gauge = { target := s.loop.target, last := some t } := by rw [gauge, hlast]
    rw [Loop.report, hlast, hgauge]
    exact ⟨rfl, rfl, rfl, trivial⟩

theorem measures_item (h : s.loop.interval.Timely) {x : Item}
    (hx : ∀ r, x = .remark r → r.interval? = none) : s.Measures (s.item x) := by
  cases x with
  | remark r => exact s.measures_remarks (List.forall_mem_singleton.2 (hx r rfl))
  | flip f =>
    have hflip := s.measures_flipped f
    rw [item, Loop.flip_eq_report h f]
    dsimp only
    split
    · exact hflip
    · next c _ =>
      exact (hflip.trans (measures_event rfl rfl rfl)).trans (measures_perform _ c.callback)

theorem measures_items (h : s.loop.interval.Timely) {xs : List Item}
    (hxs : ∀ r, .remark r ∈ xs → r.interval? = none) : s.Measures (xs.foldl item s) := by
  induction xs generalizing s with
  | nil => exact .refl s
  | cons x xs ih =>
    have hfirst : s.Measures (s.item x) :=
      measures_item h fun r hr => hxs r (hr ▸ List.mem_cons_self)
    exact hfirst.trans (ih (handles_item h x).timely fun r hr => hxs r (List.mem_cons_of_mem x hr))

end Session

/-- A reading is not what reports an interval. -/
theorem Reading.interval?_of_mem_items {r : Reading} {m : Remark} (h : .remark m ∈ r.items) :
    m.interval? = none := by
  cases r with
  | bytes bs =>
    obtain ⟨d, -, hd⟩ := List.mem_filterMap.1 h
    cases d with
    | error cause =>
      obtain rfl : Remark.malformed cause = m := by simpa [Item.ofDecoded] using hd
      rfl
    | ok e => cases e <;> simp [Item.ofDecoded] at hd
  | failure cause =>
    cases cause with
    | wouldBlock => cases h
    | interrupted | other =>
      obtain rfl : m = _ := by simpa [Reading.items] using h
      rfl

namespace Session

variable {s s' : Session}

theorem measures_handle (h : s.loop.interval.Timely) (r : Reading) : s.Measures (s.handle r) := by
  have htook : s.Measures (s.emit [.took r]) := measures_event rfl rfl rfl
  have hitems := htook.trans (measures_items (s := s.emit [.took r]) h
    fun m hm => Reading.interval?_of_mem_items (r := r) hm)
  rw [handle]
  generalize r.items.foldl item (s.emit [.took r]) = t at hitems ⊢
  dsimp only
  have harm : t.Measures ({ t with loop := t.loop.arm.1 }.emit [.armed (.next t.loop.pipe)]) :=
    measures_event rfl rfl rfl
  have hrem : ∀ m ∈ t.loop.arm.2, m.interval? = none := by
    rw [Loop.arm]
    split <;> simp [Remark.interval?]
  exact ((hitems.trans harm).trans (measures_remarks _ hrem)).trans (measures_begin _)

theorem measures_turn (h : s.loop.interval.Timely) : s.Measures s.turn := by
  unfold turn
  split
  · next r l htake =>
    obtain ⟨-, -, hl⟩ := Loop.of_take?_eq_some htake
    have hgauge : { s with loop := l }.gauge = s.gauge := by rw [gauge, hl]; rfl
    have htimely : l.interval.Timely := by rw [hl]; exact h
    obtain ⟨es, he, hg, hr⟩ := measures_handle (s := { s with loop := l }) htimely r
    rw [hgauge] at hg hr
    exact ⟨es, he, hg, hr⟩
  · exact .refl s

theorem measures_settle (h : s.loop.interval.Timely) : s.Measures s.settle := by
  rw [settle]
  induction s.loop.device.queued.length with
  | zero => exact .refl s
  | succ n ih => exact ih.trans (measures_turn (serves_repeat_turn h n).1.timely)

theorem measures_start (s : Session) : s.Measures s.start := by
  rw [start]
  split
  · exact .refl s
  · exact (measures_event (e := .started) rfl rfl rfl).trans (measures_begin _)

theorem measures_stop (s : Session) : s.Measures s.stop := by
  rw [stop]
  split
  · exact measures_event (e := .stopped) rfl rfl rfl
  · exact .refl s

theorem measures_act (s : Session) (op : Operation) : s.Measures (s.act op) := by
  cases op with
  | start => exact s.measures_start
  | stop => exact s.measures_stop
  | power mode =>
    rw [act]
    split
    · exact s.measures_start
    · exact s.measures_stop
  | change c => exact s.measures_apply c
  | read | refuse | describe => exact ⟨[], (List.append_nil _).symm, rfl, trivial⟩

theorem measures_move (h : s.loop.interval.Timely) (m : Move) : s.Measures (s.move m) := by
  cases m with
  | act op => exact s.measures_act op
  | turn => exact measures_turn h
  | settle => exact measures_settle h

theorem measures_foldl_move (h : s.loop.interval.Timely) (moves : List Move) :
    s.Measures (moves.foldl move s) := by
  induction moves generalizing s with
  | nil => exact .refl s
  | cons m moves ih =>
    have hserves := (serves_foldl_move h [m]).1
    exact (measures_move h m).trans (ih hserves.timely)

/-- Whatever is done to a loop and whenever it gets its turns, and whatever its callbacks and hooks
    change meanwhile: the times of flips fit their range, as does every step on the way to them, and
    they are ordered as the clock's readings are. All completed flips in the readings taken are
    noted, in order, whether they are forwarded or not. A callback is registered or forwarding
    switched whenever the host asks for it, or the script of a hook or a callback that runs, and
    never else. The tracker holds the time of the last flip since a callback was registered or
    forwarding was switched to something else, and nothing if there was none since; to ask for what
    holds already leaves the loop as it is. So it was whenever
    a flip came: the tracker could note it, and if it held a time then, the interval was the next
    thing to be reported, without a fraction of a microsecond. Nothing else is reported, and the
    next flip can be noted too, whatever it is. -/
theorem measures (pipe : Nat) (inert : Bool) (moves : List Move) :
    let s := moves.foldl move (create pipe inert)
    (∀ seconds micros : UInt32, Limits.IsTime ((seconds.toNat : Int) * 1000000000) ∧
      Limits.IsTime ((micros.toNat : Int) * 1000) ∧ Limits.IsTime (flipTime seconds micros)) ∧
    (∀ seconds micros seconds' micros' : UInt32,
      micros.toNat < 1000000 → micros'.toNat < 1000000 →
      (flipTime seconds micros < flipTime seconds' micros' ↔
        seconds < seconds' ∨ seconds = seconds' ∧ micros < micros')) ∧
    s.events.filterMap Event.flip? = (s.events.filterMap Event.taken?).flatMap Reading.flips ∧
    s.Logs moves ((create pipe inert).log moves) ∧
    (∀ t, s.loop.interval.last = some t ↔ LastFlip s.events t) ∧
    (s.apply (.control s.loop.enabled)).loop = s.loop ∧
    (∀ before f rest, s.events = before ++ .flipped f :: rest →
      ∃ i : FrameInterval, (∀ t, i.last = some t ↔ LastFlip before t) ∧
        i.observe f.time = .ok (⟨some f.time⟩, i.last.map (f.time - ·)) ∧
        rest.head?.bind Event.interval? =
          i.last.map fun t => (f.crtc?, (f.time - t).tdiv 1000)) ∧
    (∀ before crtc micros rest, s.events = before ++ .remark (.pageFlip crtc micros) :: rest →
      ∃ earlier f t, before = earlier ++ [.flipped f] ∧ LastFlip earlier t ∧
        crtc = f.crtc? ∧ micros = (f.time - t).tdiv 1000) ∧
    ∀ f : Drm.Flip, s.loop.interval.observe f.time =
      .ok (⟨some f.time⟩, s.loop.interval.last.map (f.time - ·)) := by
  intro s
  have htimely : (create pipe inert).loop.interval.Timely := fun t ht => by cases ht
  obtain ⟨es, hes, hgauge, hreports⟩ := measures_foldl_move htimely moves
  obtain ⟨⟨fs, hpasses, -, hflips⟩, -⟩ := serves_foldl_move htimely moves
  have hes : s.events = es := hes
  have hfs : s.events = fs := hpasses.events_eq
  have hgauge : s.gauge = Gauge.afterAll {} s.events := by rw [hgauge, hes]; rfl
  have hreports : Gauge.Reports {} s.events := hes ▸ hreports
  refine ⟨isTime_flipTime, fun _ _ _ _ => flipTime_lt_iff, ?_, logs_log pipe inert moves, ?_,
    s.loop_apply_control_self, ?_, ?_, hpasses.timely.observe_eq⟩
  · rw [hfs, hflips]
  · intro t
    rw [← Gauge.last_afterAll, ← hgauge]
    rfl
  · intro before f rest hsplit
    have hdue : (Gauge.afterAll {} s.events).due = none := by rw [← hgauge]; rfl
    rw [hsplit] at hreports hdue
    exact ⟨⟨(Gauge.afterAll {} before).last⟩, Gauge.last_afterAll before,
      (Gauge.timely_afterAll before).observe_eq f, hreports.of_flipped hdue⟩
  · intro before crtc micros rest hsplit
    exact Gauge.Reports.of_pageFlip (hsplit ▸ hreports)

/-- Times that no flip has could be too far apart. -/
example : FrameInterval.observe ⟨some Limits.minTime⟩ 0 = .error .overflow := by decide

end Session

end Vblank

end VideoWall
