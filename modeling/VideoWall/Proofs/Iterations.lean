import VideoWall.Proofs.Forwarding

/-! The iterations of a loop, one after another.

    The log of a loop has the changes that its host asked for and all that the loop did, in order.
    A small machine reads it: from what came before, a `Watch` knows which part of an iteration the
    loop is in, what is in force and which hook is installed, and it does not accept what must not
    come next. What an accepted log looks like is shown without looking at sessions any more:
    `Watch.Accepts.tallied` adds it up, and there is a lemma for what comes around each kind of
    event. Then `Session.plays_log` says that whatever a session logs is accepted, and
    `Session.iterates` puts it together. -/

namespace VideoWall.Vblank

namespace Event

/-- Whether an event asks for a vblank. -/
def isArmed : Event → Bool
  | .armed _ => true
  | _ => false

/-- Whether an event begins an iteration. -/
def isIteration : Event → Bool
  | .iteration => true
  | _ => false

/-- Whether an event starts the loop. -/
def isStart : Event → Bool
  | .started => true
  | _ => false

/-- The readings that were taken, in order. -/
def readings (es : List Event) : List Reading := es.filterMap taken?

end Event

/-! ### Logs -/

/-- The hook that ran, by its number and its tag. -/
def Entry.ran? : Entry → Option (Nat × String)
  | .did (.idle id tag) => some (id, tag)
  | _ => none

/-- The hook that an iteration runs if it begins now, by its number and its tag. -/
def Rota.due? (r : Rota) : Option (Nat × String) :=
  r.idle.map fun id => (id, (r.hooks[id]?.map (·.tag)).getD "")

/-! ### What may come next -/

/-- The part of an iteration that a loop is in: it waits for a reading or is stopped; it handles a
    reading, some flips of which are still to come and one of which may still have to be forwarded;
    it is about to begin the next iteration; or it has begun one and is about to run the hook. -/
inductive Part where
  | waiting
  | handling (flips : List Drm.Flip) (call : Option Event)
  | turning
  | hooked (id : Nat) (tag : String)

namespace Part

/-- The top of an iteration. -/
def top : Option (Nat × String) → Part
  | none => .waiting
  | some (id, tag) => .hooked id tag

/-- Whether nothing but the hook may come. -/
def isHooked : Part → Bool
  | .hooked .. => true
  | _ => false

/-- The flips that are still to come. -/
def flips : Part → List Drm.Flip
  | .handling flips _ => flips
  | _ => []

/-- The call that is still to come. -/
def call? : Part → Option Event
  | .handling _ call => call
  | _ => none

/-- How many vblanks are still to be asked for. -/
def unarmed : Part → Nat
  | .handling .. => 1
  | _ => 0

/-- How many iterations are still to begin. -/
def unbegun : Part → Nat
  | .handling .. | .turning => 1
  | _ => 0

/-- With the event, one part gives way to the other. A loop on `pipe` that runs takes a reading, and
    comes to its flips in order; it forwards each as what is in force says, asks for the next vblank
    of its own pipe when it is through with all of them, and begins the next iteration. The hook
    comes before anything else then. -/
inductive Next (pipe : Nat) (t : Target) (r : Rota) : Part → Event → Part → Prop
  | started (h : t.running = false) : Next pipe t r .waiting .started .turning
  | stopped (h : t.running = true) : Next pipe t r .waiting .stopped .waiting
  | took (h : t.running = true) (reading : Reading) :
    Next pipe t r .waiting (.took reading) (.handling reading.flips none)
  | flipped (f : Drm.Flip) (fs : List Drm.Flip) :
    Next pipe t r (.handling (f :: fs) none) (.flipped f) (.handling fs (t.call? f))
  | called (fs : List Drm.Flip) (id : Nat) (display : DisplayId) (time : Int) :
    Next pipe t r (.handling fs (some (.vsync id display time))) (.vsync id display time)
      (.handling fs none)
  | armed : Next pipe t r (.handling [] none) (.armed (.next pipe)) .turning
  | iteration : Next pipe t r .turning .iteration (.top r.due?)
  | hooked (id : Nat) (tag : String) : Next pipe t r (.hooked id tag) (.idle id tag) .waiting
  | murmur {p : Part} {e : Event} (hp : p.isHooked = false) (he : e.isMurmur = true) :
    Next pipe t r p e p

end Part

/-- What can be known of a loop from its log. -/
structure Watch where
  rota : Rota := {}
  target : Target := {}
  part : Part := .waiting

namespace Watch

/-- One entry is read. The host only asks for a change while the loop waits. -/
inductive Step (pipe : Nat) : Watch → Entry → Watch → Prop
  | asked (r : Rota) (t : Target) (c : Change) :
    Step pipe ⟨r, t, .waiting⟩ (.asked c) ⟨r.change c, t, .waiting⟩
  | did {r : Rota} {t : Target} {p q : Part} {e : Event} (h : p.Next pipe t r e q) :
    Step pipe ⟨r, t, p⟩ (.did e) ⟨r.after e, t.after e, q⟩

/-- A whole log is read. -/
def Accepts (pipe : Nat) : Watch → List Entry → Watch → Prop
  | w, [], w' => w = w'
  | w, e :: es, w' => ∃ v, w.Step pipe e v ∧ Accepts pipe v es w'

variable {pipe : Nat} {w w' w'' : Watch} {x : Entry} {xs ys : List Entry}

theorem accepts_append :
    w.Accepts pipe (xs ++ ys) w'' ↔ ∃ w', w.Accepts pipe xs w' ∧ w'.Accepts pipe ys w'' := by
  induction xs generalizing w with
  | nil => simp [Accepts]
  | cons x xs ih =>
    simp only [List.cons_append, Accepts, ih]
    constructor
    · rintro ⟨v, hv, w', hxs, hys⟩
      exact ⟨w', ⟨v, hv, hxs⟩, hys⟩
    · rintro ⟨w', ⟨v, hv, hxs⟩, hys⟩
      exact ⟨v, hv, w', hxs, hys⟩

theorem Accepts.trans (h : w.Accepts pipe xs w') (h' : w'.Accepts pipe ys w'') :
    w.Accepts pipe (xs ++ ys) w'' := accepts_append.2 ⟨w', h, h'⟩

theorem accepts_singleton : w.Accepts pipe [x] w' ↔ w.Step pipe x w' := by
  simp [Accepts]

/-- An event that may come next. -/
theorem accepts_did {r : Rota} {t : Target} {p q : Part} {e : Event} (h : p.Next pipe t r e q) :
    Accepts pipe ⟨r, t, p⟩ [.did e] ⟨r.after e, t.after e, q⟩ :=
  accepts_singleton.2 (.did h)

/-- Murmurs may come in any part, unless the hook is about to run. -/
theorem accepts_murmurs (r : Rota) (t : Target) {p : Part} (hp : p.isHooked = false)
    {es : List Event} (h : ∀ e ∈ es, e.isMurmur = true) :
    Accepts pipe ⟨r, t, p⟩ (es.map .did) ⟨r, t.afterAll es, p⟩ := by
  induction es generalizing t with
  | nil => rfl
  | cons e es ih =>
    obtain ⟨he, hes⟩ := List.forall_mem_cons.1 h
    have hstep : Step pipe ⟨r, t, p⟩ (.did e) ⟨r.after e, t.after e, p⟩ := .did (.murmur hp he)
    rw [r.after_of_murmur he] at hstep
    exact ⟨_, hstep, ih (t.after e) hes⟩

/-! ### What an accepted log looks like -/

/-- The machine knows what is installed and what is in force. -/
theorem Accepts.knows (h : w.Accepts pipe xs w') :
    w'.rota = w.rota.readAll xs ∧ w'.target = w.target.afterAll (Entry.events xs) := by
  induction xs generalizing w with
  | nil =>
    obtain rfl := h
    exact ⟨rfl, rfl⟩
  | cons x xs ih =>
    obtain ⟨v, hv, hxs⟩ := h
    obtain ⟨hr, ht⟩ := ih hxs
    rw [hr, ht]
    cases hv <;> exact ⟨rfl, rfl⟩

end Watch

namespace Part

variable {pipe : Nat} {t : Target} {r : Rota} {p q q' : Part} {e : Event} {es fs : List Event}

/-- How the events between two parts add up, with what is still to come of the iteration in which
    each of them is: for every reading there is one vblank request, for every reading and every
    start there is one iteration, and flips and calls come as they should. -/
structure Tallied (t : Target) (p : Part) (es : List Event) (q : Part) : Prop where
  armed_eq : es.countP Event.isArmed + q.unarmed = p.unarmed + (Event.readings es).length
  begun_eq : es.countP Event.isIteration + q.unbegun =
    p.unbegun + (Event.readings es).length + es.countP Event.isStart
  flips_eq : es.filterMap Event.flip? ++ q.flips =
    p.flips ++ (Event.readings es).flatMap Reading.flips
  calls_eq : es.filter Event.isCall ++ q.call?.toList = p.call?.toList ++ t.calls es

theorem tallied_nil (t : Target) (p : Part) : Tallied t p [] p where
  armed_eq := (Nat.zero_add _).trans (Nat.add_zero _).symm
  begun_eq := Nat.zero_add _
  flips_eq := (List.append_nil _).symm
  calls_eq := (List.append_nil _).symm

theorem Tallied.trans (h : Tallied t p es q) (h' : Tallied (t.afterAll es) q fs q') :
    Tallied t p (es ++ fs) q' := by
  have hreadings : Event.readings (es ++ fs) = Event.readings es ++ Event.readings fs :=
    List.filterMap_append
  constructor
  · have h1 := h.armed_eq
    have h2 := h'.armed_eq
    rw [List.countP_append, hreadings, List.length_append]
    omega
  · have h1 := h.begun_eq
    have h2 := h'.begun_eq
    rw [List.countP_append, List.countP_append, hreadings, List.length_append]
    omega
  · rw [List.filterMap_append, hreadings, List.flatMap_append, List.append_assoc, h'.flips_eq,
      ← List.append_assoc, h.flips_eq, List.append_assoc]
  · rw [List.filter_append, Target.calls_append, List.append_assoc, h'.calls_eq,
      ← List.append_assoc, h.calls_eq, List.append_assoc]

/-- Whatever gives way to the next part adds up. -/
theorem Next.tallied (h : Next pipe t r p e q) : Tallied t p [e] q := by
  cases h with
  | started | stopped | armed | hooked => exact ⟨rfl, rfl, rfl, rfl⟩
  | took h reading => exact ⟨rfl, rfl, (List.append_nil _).symm, rfl⟩
  | flipped f fs => exact ⟨rfl, rfl, (List.append_nil _).symm, (List.append_nil _).symm⟩
  | called fs id display time => exact ⟨rfl, rfl, (List.append_nil _).symm, rfl⟩
  | iteration => cases r.due? <;> exact ⟨rfl, rfl, rfl, rfl⟩
  | murmur hp he =>
    have hnil : Tallied t p [] p := tallied_nil t p
    cases e with
    | registered | switched | remark =>
      exact ⟨hnil.armed_eq, hnil.begun_eq, hnil.flips_eq, hnil.calls_eq⟩
    | _ => cases he

end Part

/-- Only the top of an iteration makes a hook come next. -/
theorem Watch.Step.iteration_of_hooked {pipe : Nat} {w w' : Watch} {x : Entry} {id : Nat}
    {tag : String} (h : w.Step pipe x w') (hw : w'.part = .hooked id tag) :
    x = .did .iteration := by
  cases h with
  | asked => cases hw
  | did hn =>
    cases hn with
    | iteration => rfl
    | murmur hp he =>
      have hhooked : Part.isHooked (.hooked id tag) = false := hw ▸ hp
      cases hhooked
    | _ => cases hw

namespace Watch.Accepts

variable {pipe : Nat} {w w' : Watch} {log before rest : List Entry} {e : Event}

/-- Between the beginning and the end of an accepted log, everything adds up. -/
theorem tallied (h : w.Accepts pipe log w') :
    Part.Tallied w.target w.part (Entry.events log) w'.part := by
  induction log generalizing w with
  | nil =>
    obtain rfl := h
    exact Part.tallied_nil _ _
  | cons x log ih =>
    obtain ⟨v, hv, hlog⟩ := h
    cases hv with
    | asked r t c =>
      have hrest := ih hlog
      exact hrest
    | did hn => exact hn.tallied.trans (ih hlog)

/-- Somewhere in an accepted log, an event came next. -/
theorem split (h : w.Accepts pipe (before ++ .did e :: rest) w') :
    ∃ p q, w.Accepts pipe before
        ⟨w.rota.readAll before, w.target.afterAll (Entry.events before), p⟩ ∧
      p.Next pipe (w.target.afterAll (Entry.events before)) (w.rota.readAll before) e q ∧
      Accepts pipe ⟨(w.rota.readAll before).after e,
        (w.target.afterAll (Entry.events before)).after e, q⟩ rest w' := by
  obtain ⟨v, hbefore, u, hstep, hrest⟩ := accepts_append.1 h
  obtain ⟨hr, ht⟩ := hbefore.knows
  rw [← hr, ← ht]
  cases hstep with
  | did hn => exact ⟨_, _, hbefore, hn, hrest⟩

/-- A vblank is asked for once all flips of the readings taken so far have come and were forwarded,
    and it is the only thing that those readings still lack. -/
theorem of_armed {request : Request}
    (h : w.Accepts pipe (before ++ .did (.armed request) :: rest) w') (hw : w.part = .waiting) :
    let es := Entry.events before
    request = .next pipe ∧ (Event.readings es).length = es.countP Event.isArmed + 1 ∧
      es.filterMap Event.flip? = (Event.readings es).flatMap Reading.flips ∧
      es.filter Event.isCall = w.target.calls es := by
  obtain ⟨p, q, hbefore, hn, -⟩ := h.split
  have htallied := hbefore.tallied
  rw [hw] at htallied
  obtain ⟨ha, -, hf, hc⟩ := htallied
  cases hn with
  | murmur hp he => cases he
  | armed =>
    refine ⟨rfl, ?_, ?_, ?_⟩
    · exact (ha.trans (Nat.zero_add _)).symm
    · exact (List.append_nil _).symm.trans hf
    · exact (List.append_nil _).symm.trans hc

/-- A reading is taken once a vblank has been asked for after every reading before it. -/
theorem of_took {reading : Reading} (h : w.Accepts pipe (before ++ .did (.took reading) :: rest) w')
    (hw : w.part = .waiting) :
    (Entry.events before).countP Event.isArmed = (Event.readings (Entry.events before)).length := by
  obtain ⟨p, q, hbefore, hn, -⟩ := h.split
  have htallied := hbefore.tallied
  rw [hw] at htallied
  cases hn with
  | murmur hp he => cases he
  | took => exact htallied.armed_eq.trans (Nat.zero_add _)

/-- An iteration runs the hook that is installed when it begins, and before anything else. -/
theorem of_iteration (h : w.Accepts pipe (before ++ .did .iteration :: rest) w')
    (hw : w'.part = .waiting) :
    rest.head?.bind Entry.ran? = (w.rota.readAll before).due? := by
  obtain ⟨p, q, -, hn, hrest⟩ := h.split
  cases hn with
  | murmur hp he => cases he
  | iteration =>
    cases hdue : (w.rota.readAll before).due? with
    | none =>
      rw [hdue] at hrest
      cases rest with
      | nil => rfl
      | cons x rest =>
        obtain ⟨v, hstep, -⟩ := hrest
        cases hstep with
        | asked => rfl
        | @did _ _ _ _ e hn =>
          cases hn with
          | murmur hp he =>
            cases e <;> first | rfl | cases he
          | _ => rfl
    | some hook =>
      obtain ⟨id, tag⟩ := hook
      rw [hdue] at hrest
      cases rest with
      | nil =>
        obtain rfl := hrest
        cases hw
      | cons x rest =>
        obtain ⟨v, hstep, -⟩ := hrest
        cases hstep with
        | did hn =>
          cases hn with
          | murmur hp he => cases hp
          | hooked => rfl

/-- A hook only runs at the top of an iteration. -/
theorem of_idle {id : Nat} {tag : String}
    (h : w.Accepts pipe (before ++ .did (.idle id tag) :: rest) w') (hw : w.part = .waiting) :
    before.getLast? = some (.did .iteration) := by
  obtain ⟨p, q, hbefore, hn, -⟩ := h.split
  cases hn with
  | murmur hp he => cases he
  | hooked =>
    rcases List.eq_nil_or_concat before with rfl | ⟨before, x, rfl⟩
    · have hpart : w.part = .hooked id tag := congrArg Watch.part hbefore
      rw [hw] at hpart
      cases hpart
    · rw [List.concat_eq_append] at hbefore ⊢
      obtain ⟨v, -, hstep⟩ := accepts_append.1 hbefore
      rw [List.getLast?_concat, (accepts_singleton.1 hstep).iteration_of_hooked rfl]

end Watch.Accepts
/-! ### What a session logs -/

namespace Session

/-- What the machine knows of a session when it is in some part of an iteration. -/
def watch (s : Session) (p : Part) : Watch := ⟨s.rota, s.loop.target, p⟩

/-- A session comes from `s` to `s'` with such a log, and the loop from one part of an iteration to
    another, as it may. It is started so many times on the way. -/
structure Plays (s s' : Session) (p q : Part) (log : List Entry) (starts : Nat) : Prop where
  events_eq : s'.events = s.events ++ Entry.events log
  accepts : (s.watch p).Accepts s.loop.pipe log (s'.watch q)
  pipe_eq : s'.loop.pipe = s.loop.pipe
  armed_eq : s'.loop.device.armed =
    s.loop.device.armed + (Entry.events log).countP Event.isArmed
  starts_eq : (Entry.events log).countP Event.isStart = starts

/-- The same, while the host asks for nothing. -/
def Carries (s s' : Session) (p q : Part) (starts : Nat) : Prop :=
  ∃ es : List Event, s.Plays s' p q (es.map .did) starts

variable {s s' s'' : Session} {p q q' : Part} {es fs : List Event} {m n : Nat}

theorem Plays.trans {xs ys : List Entry} (h : s.Plays s' p q xs m) (h' : s'.Plays s'' q q' ys n) :
    s.Plays s'' p q' (xs ++ ys) (m + n) where
  events_eq := by rw [h'.events_eq, h.events_eq, Entry.events_append, List.append_assoc]
  accepts := h.accepts.trans (h.pipe_eq ▸ h'.accepts)
  pipe_eq := h'.pipe_eq.trans h.pipe_eq
  armed_eq := by
    rw [h'.armed_eq, h.armed_eq, Entry.events_append, List.countP_append, Nat.add_assoc]
  starts_eq := by rw [Entry.events_append, List.countP_append, h.starts_eq, h'.starts_eq]

theorem Carries.trans (h : s.Carries s' p q m) (h' : s'.Carries s'' q q' n) :
    s.Carries s'' p q' (m + n) := by
  obtain ⟨es, hp⟩ := h
  obtain ⟨fs, hp'⟩ := h'
  refine ⟨es ++ fs, ?_⟩
  rw [List.map_append]
  exact hp.trans hp'

/-- One event that may come next. -/
theorem carries_event {e : Event} (hn : p.Next s.loop.pipe s.loop.target s.rota e q)
    (he : s'.events = s.events ++ [e]) (hr : s'.rota = s.rota.after e)
    (ht : s'.loop.target = s.loop.target.after e) (hp : s'.loop.pipe = s.loop.pipe)
    (ha : s'.loop.device.armed = s.loop.device.armed + [e].countP Event.isArmed) :
    s.Carries s' p q ([e].countP Event.isStart) := by
  refine ⟨[e], he, ?_, hp, ha, rfl⟩
  rw [watch, watch, hr, ht]
  exact Watch.accepts_did hn

/-- Murmurs neither ask for a vblank nor start a loop. -/
theorem countP_of_murmurs (h : ∀ e ∈ es, e.isMurmur = true) :
    es.countP Event.isArmed = 0 ∧ es.countP Event.isStart = 0 := by
  simp only [List.countP_eq_zero]
  refine ⟨fun e he => ?_, fun e he => ?_⟩
  all_goals
    have hm := h e he
    cases e <;> first | exact Bool.false_ne_true | cases hm

/-- Murmurs that install nothing. -/
theorem Murmurs.carries {os : List Event} (h : s.Murmurs s' os es) (hr : s'.rota = s.rota)
    (hp : p.isHooked = false) : s.Carries s' p p 0 := by
  obtain ⟨harmed, hstart⟩ := countP_of_murmurs h.murmurs
  refine ⟨es, ?_, ?_, h.pipe_eq, ?_, ?_⟩
  · rw [Entry.events_map_did, h.events_eq]
  · rw [watch, watch, hr, h.target_eq]
    exact Watch.accepts_murmurs _ _ hp h.murmurs
  · rw [Entry.events_map_did, h.device_eq, harmed]
    rfl
  · rw [Entry.events_map_did, hstart]

theorem carries_refl (s : Session) (hp : p.isHooked = false) : s.Carries s p p 0 :=
  (Murmurs.refl s).carries rfl hp

theorem carries_remarks (s : Session) (rs : List Remark) (hp : p.isHooked = false) :
    s.Carries (s.remarks rs) p p 0 := (s.murmurs_remarks rs).carries rfl hp

/-- A hook or a callback runs, which is the event `e`. -/
theorem carries_perform {e : Event} {id : Nat}
    (hn : p.Next s.loop.pipe s.loop.target s.rota e q) (hq : q.isHooked = false)
    (hr : s.rota.after e = s.rota.call id) (ht : s.loop.target.after e = s.loop.target)
    (ha : e.isArmed = false) (hs : e.isStart = false) :
    s.Carries ((s.emit [e]).perform id) p q 0 := by
  obtain ⟨⟨es, hm⟩, hrota⟩ := (s.emit [e]).murmurs_perform id
  obtain ⟨harmed, hstart⟩ := countP_of_murmurs hm.murmurs
  refine ⟨e :: es, ?_, ?_, hm.pipe_eq, ?_, ?_⟩
  · rw [Entry.events_map_did, hm.events_eq, emit, List.append_assoc, List.singleton_append]
  · have hfirst := Watch.accepts_did hn
    rw [hr, ht] at hfirst
    rw [watch, watch, hrota, hm.target_eq]
    exact hfirst.trans (Watch.accepts_murmurs _ _ hq hm.murmurs)
  · rw [Entry.events_map_did, hm.device_eq, List.countP_cons, harmed, ha]
    rfl
  · rw [Entry.events_map_did, List.countP_cons, hstart, hs]
    rfl

/-- An iteration begins, and the hook runs if there is one. -/
theorem carries_begin (s : Session) : s.Carries s.begin .turning .waiting 0 := by
  have htop : s.Carries (s.emit [.iteration]) .turning (.top s.rota.due?) 0 :=
    carries_event .iteration rfl rfl rfl rfl rfl
  rw [begin]
  cases hidle : s.loop.idle with
  | none =>
    have hdue : s.rota.due? = none := by rw [Rota.due?, rota, hidle]; rfl
    rw [hdue] at htop
    have hnone : (s.emit [.iteration]).loop.idle = none := hidle
    rw [hnone]
    exact htop
  | some id =>
    have hdue : s.rota.due? = some (id, (s.hooks[id]?.map (·.tag)).getD "") := by
      rw [Rota.due?, rota, hidle]
      rfl
    rw [hdue] at htop
    have hsome : (s.emit [.iteration]).loop.idle = some id := hidle
    rw [hsome]
    exact htop.trans (carries_perform (.hooked id _) rfl rfl rfl rfl rfl)

/-- One item of a reading: a flip comes, and is forwarded as what is in force says. -/
theorem carries_item (h : s.loop.interval.Timely) (x : Item) (fs : List Drm.Flip) :
    s.Carries (s.item x) (.handling (x.flip?.toList ++ fs) none) (.handling fs none) 0 := by
  cases x with
  | remark r => exact s.carries_remarks [r] rfl
  | flip f =>
    obtain ⟨rs, hf⟩ := Loop.flip_eq h f
    have hcall := call?_target s.loop f
    rw [item, hf]
    dsimp only
    have hflip : s.Carries ({ s with loop := { s.loop with interval := ⟨some f.time⟩ } }.emit
        [.flipped f]) (.handling (f :: fs) none) (.handling fs (s.loop.target.call? f)) 0 :=
      carries_event (.flipped f fs) rfl rfl rfl rfl rfl
    have hrem := hflip.trans (carries_remarks _ rs rfl)
    rw [hcall] at hrem
    cases hfwd : s.loop.forward? f with
    | none =>
      rw [hfwd] at hrem
      exact hrem
    | some c =>
      rw [hfwd] at hrem
      exact hrem.trans (carries_perform (.called fs _ _ _) rfl rfl rfl rfl rfl)

theorem carries_items (h : s.loop.interval.Timely) (xs : List Item) (fs : List Drm.Flip) :
    s.Carries (xs.foldl item s) (.handling (xs.filterMap Item.flip? ++ fs) none)
      (.handling fs none) 0 := by
  induction xs generalizing s with
  | nil => exact s.carries_refl rfl
  | cons x xs ih =>
    have hf : (x :: xs).filterMap Item.flip? = x.flip?.toList ++ xs.filterMap Item.flip? := by
      cases x <;> rfl
    rw [hf, List.append_assoc]
    exact (carries_item h x _).trans (ih (handles_item h x).timely)

/-- A reading is taken by a running loop, and a whole iteration comes of it. -/
theorem carries_handle (h : s.loop.interval.Timely) (hr : s.loop.running = true) (r : Reading) :
    s.Carries (s.handle r) .waiting .waiting 0 := by
  have htook : s.Carries (s.emit [.took r]) .waiting (.handling r.flips none) 0 :=
    carries_event (.took hr r) rfl rfl rfl rfl rfl
  have hitems := carries_items (s := s.emit [.took r]) h r.items []
  rw [Reading.filterMap_items, List.append_nil] at hitems
  rw [handle]
  dsimp only
  generalize r.items.foldl item (s.emit [.took r]) = t at hitems ⊢
  have harm : t.Carries ({ t with loop := t.loop.arm.1 }.emit [.armed (.next t.loop.pipe)])
      (.handling [] none) .turning 0 :=
    carries_event .armed rfl rfl rfl rfl rfl
  exact (((htook.trans hitems).trans harm).trans (carries_remarks _ t.loop.arm.2 rfl)).trans
    (carries_begin _)

/-! ### Turns and operations -/

theorem carries_turn (h : s.loop.interval.Timely) : s.Carries s.turn .waiting .waiting 0 := by
  unfold turn
  split
  · next r l htake =>
    obtain ⟨hrun, -, hl⟩ := Loop.of_take?_eq_some htake
    obtain ⟨queued, rfl⟩ : ∃ queued, l = { s.loop with device := { s.loop.device with queued } } :=
      ⟨_, hl⟩
    obtain ⟨es, hp⟩ := carries_handle
      (s := { s with loop := { s.loop with device := { s.loop.device with queued } } }) h hrun r
    exact ⟨es, hp.events_eq, hp.accepts, hp.pipe_eq, hp.armed_eq, hp.starts_eq⟩
  · exact s.carries_refl rfl

theorem carries_settle (h : s.loop.interval.Timely) : s.Carries s.settle .waiting .waiting 0 := by
  rw [settle]
  induction s.loop.device.queued.length with
  | zero => exact s.carries_refl rfl
  | succ n ih => exact ih.trans (carries_turn (serves_repeat_turn h n).1.timely)

/-- A start begins the first iteration, unless the loop runs already. -/
theorem carries_start (s : Session) :
    s.Carries s.start .waiting .waiting (!s.loop.running).toNat := by
  rw [start]
  cases hrun : s.loop.running with
  | true => exact s.carries_refl rfl
  | false =>
    have hstarted : s.Carries ({ s with loop := s.loop.start }.emit [.started]) .waiting .turning
        1 := carries_event (.started hrun) rfl rfl rfl rfl rfl
    exact hstarted.trans (carries_begin _)

theorem carries_stop (s : Session) : s.Carries s.stop .waiting .waiting 0 := by
  rw [stop]
  cases hrun : s.loop.running with
  | false => exact s.carries_refl rfl
  | true =>
    exact carries_event (.stopped hrun) rfl rfl rfl rfl rfl

end Session

/-- Whether an operation starts a loop that did not run before. -/
def Operation.starts (before : Bool) (op : Operation) : Bool := !before && op.runs before

/-- How many operations start a loop that does not run. -/
def Operation.countStarts : Bool → List Operation → Nat
  | _, [] => 0
  | before, op :: ops => (op.starts before).toNat + countStarts (op.runs before) ops

theorem Operation.countStarts_append (before : Bool) (xs ys : List Operation) :
    countStarts before (xs ++ ys) =
      countStarts before xs + countStarts (xs.foldl Operation.runs before) ys := by
  induction xs generalizing before with
  | nil => exact (Nat.zero_add _).symm
  | cons op xs ih => rw [List.cons_append, countStarts, countStarts, ih, Nat.add_assoc]; rfl

namespace Session

variable {s : Session}

/-- A move on which the host asks for no change. -/
theorem Carries.plays_entries {m : Move} (h : s.Carries (s.move m) .waiting .waiting n)
    (hm : m.asked? = none) : s.Plays (s.move m) .waiting .waiting (s.entries m) n := by
  obtain ⟨es, hp⟩ := h
  have hes : (s.move m).events.drop s.events.length = es := by
    rw [hp.events_eq, Entry.events_map_did, List.drop_left]
  rw [entries, hm, hes]
  exact hp

/-- The host asks for a change. -/
theorem plays_change (s : Session) (c : Change) :
    s.Plays (s.move (.act (.change c))) .waiting .waiting (s.entries (.act (.change c))) 0 := by
  obtain ⟨es, hm⟩ := s.murmurs_apply c
  obtain ⟨harmed, hstart⟩ := countP_of_murmurs hm.murmurs
  have hes : (s.move (.act (.change c))).events.drop s.events.length = es := by
    show (s.apply c).events.drop s.events.length = es
    rw [hm.events_eq, List.drop_left]
  have hlog : s.entries (.act (.change c)) = .asked c :: es.map .did := by
    rw [entries, hes]
    rfl
  have hevents : Entry.events (s.entries (.act (.change c))) = es := by
    rw [hlog]
    exact Entry.events_map_did es
  refine ⟨hevents ▸ hm.events_eq, ?_, hm.pipe_eq, ?_, hevents ▸ hstart⟩
  · rw [hlog]
    refine ⟨_, .asked s.rota s.loop.target c, ?_⟩
    have hafter : (s.move (.act (.change c))).watch .waiting =
        ⟨s.rota.change c, s.loop.target.afterAll es, .waiting⟩ := by
      rw [← s.rota_apply c, ← hm.target_eq]
      rfl
    rw [hafter]
    exact Watch.accepts_murmurs _ _ rfl hm.murmurs
  · rw [hevents, harmed]
    exact congrArg Device.armed hm.device_eq

/-- An operation by which the host asks for no change. -/
theorem carries_act (s : Session) {op : Operation} (hop : ∀ c, op ≠ .change c) :
    s.Carries (s.act op) .waiting .waiting (op.starts s.loop.running).toNat := by
  have hstart : s.Carries s.start .waiting .waiting (!s.loop.running && true).toNat := by
    rw [Bool.and_true]
    exact s.carries_start
  have hstop : s.Carries s.stop .waiting .waiting (!s.loop.running && false).toNat := by
    rw [Bool.and_false]
    exact s.carries_stop
  cases op with
  | start => exact hstart
  | stop => exact hstop
  | power mode =>
    rw [act, Operation.starts, Operation.runs]
    cases mode.isOn with
    | true => exact hstart
    | false => exact hstop
  | change c => exact absurd rfl (hop c)
  | read | refuse | describe =>
    have hnone : (!s.loop.running && s.loop.running).toNat = 0 := by
      rw [Bool.not_and_self]
      rfl
    exact ⟨[], (List.append_nil _).symm, rfl, rfl, rfl, hnone.symm⟩

theorem plays_move (h : s.loop.interval.Timely) (m : Move) :
    s.Plays (s.move m) .waiting .waiting (s.entries m)
      (Operation.countStarts s.loop.running ([m].filterMap Move.act?)) := by
  cases m with
  | turn => exact (carries_turn h).plays_entries rfl
  | settle => exact (carries_settle h).plays_entries rfl
  | act op =>
    have hact : (∀ c, op ≠ .change c) → (Move.act op).asked? = none →
        s.Plays (s.move (.act op)) .waiting .waiting (s.entries (.act op))
          (op.starts s.loop.running).toNat := fun hop => (s.carries_act hop).plays_entries
    cases op with
    | change c =>
      have hnone : (!s.loop.running && s.loop.running).toNat + 0 = 0 := by
        rw [Bool.not_and_self]
        rfl
      show s.Plays _ _ _ _ ((!s.loop.running && s.loop.running).toNat + 0)
      rw [hnone]
      exact s.plays_change c
    | start | stop | power | read | refuse | describe => exact hact (fun c hc => by cases hc) rfl

/-- Over any moves, the log is accepted, and it has a start for each operation that starts a loop
    which does not run. -/
theorem plays_log (h : s.loop.interval.Timely) (moves : List Move) :
    s.Plays (moves.foldl move s) .waiting .waiting (s.log moves)
      (Operation.countStarts s.loop.running (moves.filterMap Move.act?)) := by
  induction moves generalizing s with
  | nil => exact ⟨(List.append_nil _).symm, rfl, rfl, rfl, rfl⟩
  | cons m moves ih =>
    obtain ⟨hserves, hrun⟩ := serves_foldl_move h [m]
    have hrest := ih (s := s.move m) hserves.timely
    have hops : (m :: moves).filterMap Move.act? =
        [m].filterMap Move.act? ++ moves.filterMap Move.act? :=
      List.filterMap_append (l := [m])
    rw [hops, Operation.countStarts_append, ← hrun]
    exact (plays_move h m).trans hrest

/-- A hook that installs another one gives way to it at the next iteration. -/
example : (([.act (.change (.idle "first" [.idle "second" [] 0] 1)), .act .start,
    .act (.read (.failure .wouldBlock)), .settle] : List Move).foldl move
      (create 3 false)).events = [.started, .iteration, .idle 0 "first",
        .took (.failure .wouldBlock), .armed (.next 3), .iteration, .idle 1 "second"] := by
  decide

end Session

end VideoWall.Vblank
