import VideoWall.Vblank.Session

/-! What is in force in a loop, and by whose order.

    A callback is registered and forwarding is switched because the host asks for it, or because the
    script of a hook or a callback says so when it runs. The events of a session say what was put in
    force; its log has what the host asked for in between, and from it a `Rota` knows which scripts
    there are. `Rota.Accounts` says of a log that nothing is put in force without an order, and that
    every order is carried out at once and in turn. `Session.logs_log` says that the log of any
    session is like that. -/

namespace VideoWall.Vblank

/-! ### What is in force -/

/-- What is in force at some moment: whether the loop runs, the callback registered last with its
    display, and whether forwarding was switched on last. -/
structure Target where
  running : Bool := false
  callback : Option Nat := none
  display : DisplayId := {}
  enabled : Bool := false
  deriving DecidableEq

namespace Target

/-- What is in force after an event. -/
def after (t : Target) : Event → Target
  | .started => { t with running := true }
  | .stopped => { t with running := false }
  | .registered callback display => { t with callback := some callback, display }
  | .switched enabled => { t with enabled }
  | _ => t

/-- What is in force after some events. -/
def afterAll (t : Target) (es : List Event) : Target := es.foldl after t

theorem afterAll_append (t : Target) (es fs : List Event) :
    t.afterAll (es ++ fs) = (t.afterAll es).afterAll fs := List.foldl_append

end Target

/-- What is in force in a loop. -/
def Loop.target (l : Loop Nat) : Target := ⟨l.running, l.callback, l.display, l.enabled⟩

namespace Event

/-- Whether an event is what comes of a change, or a remark. -/
def isMurmur : Event → Bool
  | .registered .. | .switched _ | .remark _ => true
  | _ => false

/-- The event, if it puts something in force that can be ordered. -/
def ordered? : Event → Option Event
  | .registered callback display => some (.registered callback display)
  | .switched enabled => some (.switched enabled)
  | _ => none

end Event

/-- What a change puts in force, if `installed` hooks and callbacks have been installed so far. -/
def Change.orders (installed : Nat) : Change → List Event
  | .register display .. => [.registered installed display]
  | .control enabled => [.switched enabled]
  | .idle .. => []

/-! ### Logs -/

/-- An entry of a log: a change that the host asked for, or something that the loop did. -/
inductive Entry where
  | asked (change : Change)
  | did (event : Event)

namespace Entry

/-- What the loop did. -/
def event? : Entry → Option Event
  | .did e => some e
  | .asked _ => none

/-- What the host asked for. -/
def asked? : Entry → Option Change
  | .asked c => some c
  | .did _ => none

/-- All that the loop did, in order. -/
def events (log : List Entry) : List Event := log.filterMap event?

theorem events_append (xs ys : List Entry) : events (xs ++ ys) = events xs ++ events ys :=
  List.filterMap_append

theorem events_map_did (es : List Event) : events (es.map .did) = es := by
  rw [events, List.filterMap_map]
  exact List.filterMap_some

end Entry

/-- The hooks and callbacks installed so far, by number, and the one among them that runs at the top
    of an iteration. -/
structure Rota where
  hooks : List Hook := []
  idle : Option Nat := none

namespace Rota

/-- What a change installs. -/
def change (r : Rota) : Change → Rota
  | .register _ script limit => { r with hooks := r.hooks ++ [{ script, left := limit }] }
  | .control _ => r
  | .idle tag script limit =>
    { hooks := r.hooks ++ [{ tag, script, left := limit }], idle := some r.hooks.length }

/-- What a hook or a callback installs when it runs. -/
def call (r : Rota) (id : Nat) : Rota :=
  match r.hooks[id]? with
  | some { tag, script, left := left + 1 } =>
    script.foldl change { r with hooks := r.hooks.set id { tag, script, left } }
  | _ => r

/-- What is installed after an event. -/
def after (r : Rota) : Event → Rota
  | .idle id _ => r.call id
  | .vsync id _ _ => r.call id
  | _ => r

/-- What is installed after an entry. -/
def read (r : Rota) : Entry → Rota
  | .asked c => r.change c
  | .did e => r.after e

/-- What is installed after a whole log. -/
def readAll (r : Rota) (log : List Entry) : Rota := log.foldl read r

theorem after_of_murmur (r : Rota) {e : Event} (h : e.isMurmur = true) : r.after e = r := by
  cases e <;> first | rfl | cases h

/-! ### Orders -/

/-- What a script puts in force, change by change. -/
def scriptOrders : Rota → List Change → List Event
  | _, [] => []
  | r, c :: script => c.orders r.hooks.length ++ scriptOrders (r.change c) script

/-- What a hook or a callback puts in force when it runs, unless its script is used up. -/
def callOrders (r : Rota) (id : Nat) : List Event :=
  match r.hooks[id]? with
  | some { tag, script, left := left + 1 } =>
    { r with hooks := r.hooks.set id { tag, script, left } }.scriptOrders script
  | _ => []

/-- What an entry orders: a request of the host, or the script of what runs. -/
def orders (r : Rota) : Entry → List Event
  | .asked c => c.orders r.hooks.length
  | .did (.idle id _) => r.callOrders id
  | .did (.vsync id ..) => r.callOrders id
  | .did _ => []

/-- In a log, what has been ordered is put in force at once and in turn, and nothing else is. What
    is still owed from before it comes first; only remarks may come in between. -/
def Accounts : Rota → List Event → List Entry → Prop
  | _, owed, [] => owed = []
  | r, owed, x :: log =>
    if x.event?.any Event.isMurmur then
      ∃ rest, owed = (x.event?.bind Event.ordered?).toList ++ rest ∧ Accounts r rest log
    else owed = [] ∧ Accounts (r.read x) (r.orders x) log

variable {r : Rota} {owed es : List Event} {xs ys : List Entry}

/-- What is ordered by the end of a log is put in force within it. -/
theorem Accounts.append (hx : r.Accounts owed xs) (hy : (r.readAll xs).Accounts [] ys) :
    r.Accounts owed (xs ++ ys) := by
  induction xs generalizing r owed with
  | nil =>
    obtain rfl : owed = [] := hx
    exact hy
  | cons x xs ih =>
    rw [Accounts] at hx
    rw [List.cons_append, Accounts]
    split at hx
    · next hm =>
      obtain ⟨rest, howed, hrest⟩ := hx
      have hread : r.read x = r := by
        cases x with
        | asked c => cases hm
        | did e => exact r.after_of_murmur hm
      have hreadAll : r.readAll (x :: xs) = r.readAll xs := by
        rw [readAll, List.foldl_cons, hread]
        rfl
      rw [if_pos hm]
      exact ⟨rest, howed, ih hrest (hreadAll ▸ hy)⟩
    · next hm =>
      rw [if_neg hm]
      exact ⟨hx.1, ih hx.2 hy⟩

/-- Murmurs pay what is owed. -/
theorem accounts_murmurs (r : Rota) (h : ∀ e ∈ es, e.isMurmur = true) :
    r.Accounts (es.filterMap Event.ordered?) (es.map .did) := by
  induction es with
  | nil => rfl
  | cons e es ih =>
    obtain ⟨he, hes⟩ := List.forall_mem_cons.1 h
    rw [List.map_cons, Accounts]
    have hany : (Entry.did e).event?.any Event.isMurmur = true := he
    rw [if_pos hany]
    refine ⟨es.filterMap Event.ordered?, ?_, ih hes⟩
    cases e <;> rfl

/-- An order and the murmurs that carry it out. -/
theorem accounts_cons {x : Entry} (hx : x.event?.any Event.isMurmur = false)
    (h : ∀ e ∈ es, e.isMurmur = true) (he : es.filterMap Event.ordered? = r.orders x) :
    r.Accounts [] (x :: es.map .did) := by
  rw [Accounts, if_neg (by rw [hx]; exact Bool.false_ne_true), ← he]
  exact ⟨rfl, accounts_murmurs _ h⟩

end Rota

/-! ### Changes and scripts in a session -/

namespace Session

/-- What is installed in a session. -/
def rota (s : Session) : Rota := ⟨s.hooks, s.loop.idle⟩

/-- From `s` to `s'` there are changes and remarks, and nothing but the events `es` that come of
    them. They put `orders` in force, and nothing else. -/
structure Murmurs (s s' : Session) (orders es : List Event) : Prop where
  events_eq : s'.events = s.events ++ es
  murmurs : ∀ e ∈ es, e.isMurmur = true
  ordered_eq : es.filterMap Event.ordered? = orders
  target_eq : s'.loop.target = s.loop.target.afterAll es
  pipe_eq : s'.loop.pipe = s.loop.pipe
  device_eq : s'.loop.device = s.loop.device

variable {s s' s'' : Session} {os os' es fs : List Event}

theorem Murmurs.trans (h : s.Murmurs s' os es) (h' : s'.Murmurs s'' os' fs) :
    s.Murmurs s'' (os ++ os') (es ++ fs) where
  events_eq := by rw [h'.events_eq, h.events_eq, List.append_assoc]
  murmurs := List.forall_mem_append.2 ⟨h.murmurs, h'.murmurs⟩
  ordered_eq := by rw [List.filterMap_append, h.ordered_eq, h'.ordered_eq]
  target_eq := by rw [h'.target_eq, h.target_eq, Target.afterAll_append]
  pipe_eq := h'.pipe_eq.trans h.pipe_eq
  device_eq := h'.device_eq.trans h.device_eq

theorem Murmurs.refl (s : Session) : s.Murmurs s [] [] :=
  ⟨(List.append_nil _).symm, List.forall_mem_nil _, rfl, rfl, rfl, rfl⟩

/-- Remarks change nothing that is in force. -/
theorem afterAll_map_remark (t : Target) (rs : List Remark) :
    t.afterAll (rs.map .remark) = t := by
  induction rs with
  | nil => rfl
  | cons r rs ih => exact ih

theorem murmurs_remarks (s : Session) (rs : List Remark) :
    s.Murmurs (s.remarks rs) [] (rs.map .remark) where
  events_eq := rfl
  murmurs := List.forall_mem_map.2 fun _ _ => rfl
  ordered_eq := List.filterMap_eq_nil_iff.2 (List.forall_mem_map.2 fun _ _ => rfl)
  target_eq := (afterAll_map_remark _ rs).symm
  pipe_eq := rfl
  device_eq := rfl

theorem murmurs_apply (s : Session) (c : Change) :
    ∃ es, s.Murmurs (s.apply c) (c.orders s.hooks.length) es := by
  cases c with
  | register display script limit =>
    exact ⟨[.registered s.hooks.length display], rfl, List.forall_mem_singleton.2 rfl, rfl, rfl,
      rfl, rfl⟩
  | idle tag script limit =>
    exact ⟨[], (List.append_nil _).symm, List.forall_mem_nil _, rfl, rfl, rfl, rfl⟩
  | control enabled =>
    -- asking for what already holds is an event too, but changes nothing
    have hl : (s.loop.control enabled).1.target = { s.loop.target with enabled } ∧
        (s.loop.control enabled).1.pipe = s.loop.pipe ∧
        (s.loop.control enabled).1.device = s.loop.device := by
      rw [Loop.control]
      split
      · next he => exact ⟨by rw [← he]; rfl, rfl, rfl⟩
      · exact ⟨rfl, rfl, rfl⟩
    obtain ⟨ht, hp, hd⟩ := hl
    have hswitch : s.Murmurs
        ({ s with loop := (s.loop.control enabled).1 }.emit [.switched enabled])
        [.switched enabled] [.switched enabled] :=
      ⟨rfl, List.forall_mem_singleton.2 rfl, rfl, ht, hp, hd⟩
    exact ⟨_, hswitch.trans (murmurs_remarks _ _)⟩

theorem rota_apply (s : Session) (c : Change) : (s.apply c).rota = s.rota.change c := by
  cases c with
  | register display script limit => rfl
  | idle tag script limit => rfl
  | control enabled =>
    have hidle : (s.loop.control enabled).1.idle = s.loop.idle := by
      rw [Loop.control]
      split <;> rfl
    exact congrArg (Rota.mk s.hooks) hidle

theorem murmurs_script (s : Session) (script : List Change) :
    (∃ es, s.Murmurs (script.foldl apply s) (s.rota.scriptOrders script) es) ∧
      (script.foldl apply s).rota = script.foldl Rota.change s.rota := by
  induction script generalizing s with
  | nil => exact ⟨⟨[], .refl s⟩, rfl⟩
  | cons c script ih =>
    obtain ⟨es, hc⟩ := s.murmurs_apply c
    obtain ⟨⟨fs, hscript⟩, hrota⟩ := ih (s.apply c)
    rw [rota_apply] at hscript hrota
    exact ⟨⟨es ++ fs, hc.trans hscript⟩, hrota⟩

/-- A hook or a callback installs what its script says, and puts in force what it orders. -/
theorem murmurs_perform (s : Session) (id : Nat) :
    (∃ es, s.Murmurs (s.perform id) (s.rota.callOrders id) es) ∧
      (s.perform id).rota = s.rota.call id := by
  have hnone : (∃ es, s.Murmurs s [] es) ∧ s.rota = s.rota := ⟨⟨[], .refl s⟩, rfl⟩
  have hhooks : s.rota.hooks = s.hooks := rfl
  rw [perform, Rota.call, Rota.callOrders, hhooks]
  cases s.hooks[id]? with
  | none => exact hnone
  | some hook =>
    obtain ⟨tag, script, left⟩ := hook
    cases left with
    | zero => exact hnone
    | succ left =>
      obtain ⟨⟨es, h⟩, hrota⟩ :=
        murmurs_script { s with hooks := s.hooks.set id { tag, script, left } } script
      exact ⟨⟨es, h.events_eq, h.murmurs, h.ordered_eq, h.target_eq, h.pipe_eq, h.device_eq⟩,
        hrota⟩

/-! ### The log of a session -/

/-- A session comes from `s` to `s'` with such a log: it has all that happens, it says what is
    installed in the end, and it accounts for what is put in force. -/
structure Records (s s' : Session) (log : List Entry) : Prop where
  events_eq : s'.events = s.events ++ Entry.events log
  rota_eq : s'.rota = s.rota.readAll log
  accounts : s.rota.Accounts [] log

/-- The same, while the host asks for nothing. -/
def Keeps (s s' : Session) : Prop := ∃ es : List Event, s.Records s' (es.map .did)

theorem Records.trans {xs ys : List Entry} (h : s.Records s' xs) (h' : s'.Records s'' ys) :
    s.Records s'' (xs ++ ys) where
  events_eq := by rw [h'.events_eq, h.events_eq, Entry.events_append, List.append_assoc]
  rota_eq := by
    rw [h'.rota_eq, h.rota_eq]
    exact List.foldl_append.symm
  accounts := h.accounts.append (h.rota_eq ▸ h'.accounts)

theorem Keeps.trans (h : s.Keeps s') (h' : s'.Keeps s'') : s.Keeps s'' := by
  obtain ⟨es, hs⟩ := h
  obtain ⟨fs, hs'⟩ := h'
  refine ⟨es ++ fs, ?_⟩
  rw [List.map_append]
  exact hs.trans hs'

theorem Keeps.refl (s : Session) : s.Keeps s := ⟨[], (List.append_nil _).symm, rfl, rfl⟩

/-- Murmurs install nothing themselves. -/
theorem readAll_murmurs (r : Rota) (h : ∀ e ∈ es, e.isMurmur = true) :
    r.readAll (es.map .did) = r := by
  induction es with
  | nil => rfl
  | cons e es ih =>
    obtain ⟨he, hes⟩ := List.forall_mem_cons.1 h
    exact (congrArg (Rota.readAll · _) (r.after_of_murmur he)).trans (ih hes)

/-- An order is given with the entry `x`, and carried out. -/
theorem Murmurs.records {x : Entry} {t : Session} (h : t.Murmurs s' (s.rota.orders x) es)
    (hx : x.event?.any Event.isMurmur = false) (he : t.events = s.events ++ x.event?.toList)
    (hr : s'.rota = s.rota.read x) : s.Records s' (x :: es.map .did) where
  events_eq := by
    have hevents : Entry.events (x :: es.map .did) = x.event?.toList ++ es := by
      rw [← List.singleton_append, Entry.events_append, Entry.events_map_did]
      cases x <;> rfl
    rw [hevents, h.events_eq, he, List.append_assoc]
  rota_eq := hr.trans (readAll_murmurs _ h.murmurs).symm
  accounts := Rota.accounts_cons hx h.murmurs h.ordered_eq

theorem keeps_remarks (s : Session) (rs : List Remark) : s.Keeps (s.remarks rs) := by
  have hm : ∀ e ∈ rs.map Event.remark, e.isMurmur = true := (s.murmurs_remarks rs).murmurs
  refine ⟨rs.map .remark, ?_, (readAll_murmurs _ hm).symm, ?_⟩
  · rw [Entry.events_map_did]
    rfl
  · rw [← (s.murmurs_remarks rs).ordered_eq]
    exact Rota.accounts_murmurs _ hm

/-- An event that gives no order and installs nothing. -/
theorem keeps_event {e : Event} (he : s'.events = s.events ++ [e]) (hr : s'.rota = s.rota)
    (hm : e.isMurmur = false) (hafter : s.rota.after e = s.rota)
    (horders : s.rota.orders (.did e) = []) : s.Keeps s' := by
  have hnone : ∀ x ∈ ([] : List Event), x.isMurmur = true := List.forall_mem_nil _
  exact ⟨[e], he, hr.trans hafter.symm, Rota.accounts_cons hm hnone horders.symm⟩

/-- A hook or a callback runs, which is the event `e`. -/
theorem keeps_perform (s : Session) {e : Event} {id : Nat} (hm : e.isMurmur = false)
    (hafter : s.rota.after e = s.rota.call id)
    (horders : s.rota.orders (.did e) = s.rota.callOrders id) :
    s.Keeps ((s.emit [e]).perform id) := by
  obtain ⟨⟨es, h⟩, hrota⟩ := (s.emit [e]).murmurs_perform id
  refine ⟨e :: es, Murmurs.records (t := s.emit [e]) ?_ hm rfl (hrota.trans hafter.symm)⟩
  rw [horders]
  exact h

theorem keeps_begin (s : Session) : s.Keeps s.begin := by
  have htop : s.Keeps (s.emit [.iteration]) := keeps_event rfl rfl rfl rfl rfl
  unfold begin
  dsimp only
  split
  · exact htop
  · exact htop.trans (keeps_perform _ rfl rfl rfl)

theorem keeps_item (s : Session) (x : Item) : s.Keeps (s.item x) := by
  cases x with
  | remark r => exact s.keeps_remarks [r]
  | flip f =>
    have hidle : (s.loop.flip f).1.idle = s.loop.idle := by
      rw [Loop.flip]
      split <;> rfl
    have hflip : s.Keeps ({ s with loop := (s.loop.flip f).1 }.emit [.flipped f]) :=
      keeps_event rfl (congrArg (Rota.mk s.hooks) hidle) rfl rfl rfl
    have hrem := hflip.trans (keeps_remarks _ (s.loop.flip f).2.1)
    rw [item]
    dsimp only
    split
    · exact hrem
    · exact hrem.trans (keeps_perform _ rfl rfl rfl)

theorem keeps_items (s : Session) (xs : List Item) : s.Keeps (xs.foldl item s) := by
  induction xs generalizing s with
  | nil => exact .refl s
  | cons x xs ih => exact (s.keeps_item x).trans (ih _)

theorem keeps_handle (s : Session) (r : Reading) : s.Keeps (s.handle r) := by
  have htook : s.Keeps (s.emit [.took r]) := keeps_event rfl rfl rfl rfl rfl
  have hitems := htook.trans (keeps_items _ r.items)
  rw [handle]
  dsimp only
  generalize r.items.foldl item (s.emit [.took r]) = t at hitems ⊢
  have harm : t.Keeps ({ t with loop := t.loop.arm.1 }.emit [.armed (.next t.loop.pipe)]) :=
    keeps_event rfl rfl rfl rfl rfl
  exact ((hitems.trans harm).trans (keeps_remarks _ _)).trans (keeps_begin _)

theorem keeps_turn (s : Session) : s.Keeps s.turn := by
  unfold turn
  split
  · next r l htake =>
    have hrota : { s with loop := l }.rota = s.rota := by
      rw [(Loop.of_take?_eq_some htake).2.2]
      rfl
    obtain ⟨es, he, hr, ha⟩ := keeps_handle { s with loop := l } r
    rw [hrota] at hr ha
    exact ⟨es, he, hr, ha⟩
  · exact .refl s

theorem keeps_settle (s : Session) : s.Keeps s.settle := by
  rw [settle]
  induction s.loop.device.queued.length with
  | zero => exact .refl s
  | succ n ih => exact ih.trans (keeps_turn _)

theorem keeps_start (s : Session) : s.Keeps s.start := by
  rw [start]
  split
  · exact .refl s
  · have hstarted : s.Keeps ({ s with loop := s.loop.start }.emit [.started]) :=
      keeps_event rfl rfl rfl rfl rfl
    exact hstarted.trans (keeps_begin _)

theorem keeps_stop (s : Session) : s.Keeps s.stop := by
  rw [stop]
  split
  · exact keeps_event (e := .stopped) rfl rfl rfl rfl rfl
  · exact .refl s

end Session

/-! ### Moves -/

/-- What happens next: an operation, a turn of the loop, or as many turns as readings wait. -/
inductive Move where
  | act (op : Operation)
  | turn
  | settle

/-- The operation of a move. -/
def Move.act? : Move → Option Operation
  | .act op => some op
  | _ => none

/-- The change that a host asks for with a move. -/
def Move.asked? : Move → Option Change
  | .act (.change c) => some c
  | _ => none

namespace Session

variable {s : Session}

/-- Makes a move. -/
def move (s : Session) : Move → Session
  | .act op => s.act op
  | .turn => s.turn
  | .settle => s.settle

/-- What a move adds to the log. -/
def entries (s : Session) (m : Move) : List Entry :=
  m.asked?.toList.map .asked ++ ((s.move m).events.drop s.events.length).map .did

/-- The log of some moves. -/
def log : Session → List Move → List Entry
  | _, [] => []
  | s, m :: moves => s.entries m ++ log (s.move m) moves

/-- A log is that of a session after some moves: all that happened is in it, and whatever the host
    asked for, in order, and nothing else was put in force than what was ordered by then. -/
structure Logs (s : Session) (moves : List Move) (log : List Entry) : Prop where
  events_eq : s.events = Entry.events log
  asked_eq : log.filterMap Entry.asked? = moves.filterMap Move.asked?
  accounts : Rota.Accounts {} [] log

theorem keeps_act (s : Session) {op : Operation} (hop : ∀ c, op ≠ .change c) :
    s.Keeps (s.act op) := by
  cases op with
  | start => exact s.keeps_start
  | stop => exact s.keeps_stop
  | power mode =>
    rw [act]
    split
    · exact s.keeps_start
    · exact s.keeps_stop
  | change c => exact absurd rfl (hop c)
  | read | refuse | describe => exact ⟨[], (List.append_nil _).symm, rfl, rfl⟩

/-- What the host asks for comes before what the loop does about it. -/
theorem records_move (s : Session) (m : Move) : s.Records (s.move m) (s.entries m) := by
  have hkeeps : ∀ {m : Move}, m.asked? = none → s.Keeps (s.move m) →
      s.Records (s.move m) (s.entries m) := by
    rintro m hm ⟨es, h⟩
    have hes : (s.move m).events.drop s.events.length = es := by
      rw [h.events_eq, Entry.events_map_did, List.drop_left]
    rw [entries, hm, hes]
    exact h
  cases m with
  | turn => exact hkeeps rfl s.keeps_turn
  | settle => exact hkeeps rfl s.keeps_settle
  | act op =>
    have hact : (∀ c, op ≠ .change c) → s.Keeps (s.move (.act op)) := s.keeps_act
    cases op with
    | change c =>
      obtain ⟨es, h⟩ := s.murmurs_apply c
      have hes : (s.apply c).events.drop s.events.length = es := by
        rw [h.events_eq, List.drop_left]
      have hlog : s.entries (.act (.change c)) = .asked c :: es.map .did := by
        rw [← hes]
        rfl
      rw [hlog]
      exact Murmurs.records (t := s) h rfl (List.append_nil _).symm (s.rota_apply c)
    | start | stop | power | read | refuse | describe =>
      refine hkeeps rfl (hact ?_)
      rintro c ⟨⟩

theorem records_log (s : Session) (moves : List Move) :
    s.Records (moves.foldl move s) (s.log moves) := by
  induction moves generalizing s with
  | nil => exact ⟨(List.append_nil _).symm, rfl, rfl⟩
  | cons m moves ih => exact (s.records_move m).trans (ih _)

theorem asked_log (s : Session) (moves : List Move) :
    (s.log moves).filterMap Entry.asked? = moves.filterMap Move.asked? := by
  have hdid : ∀ es : List Event, (es.map Entry.did).filterMap Entry.asked? = [] := fun es =>
    List.filterMap_eq_nil_iff.2 (List.forall_mem_map.2 fun _ _ => rfl)
  induction moves generalizing s with
  | nil => rfl
  | cons m moves ih =>
    rw [log, List.filterMap_append, ih, entries, List.filterMap_append, hdid, List.append_nil]
    cases hm : m.asked? <;> simp [hm, Entry.asked?]

/-- The log of a new session accounts for all that is ever put in force. -/
theorem logs_log (pipe : Nat) (inert : Bool) (moves : List Move) :
    (moves.foldl move (create pipe inert)).Logs moves ((create pipe inert).log moves) where
  events_eq := (records_log _ moves).events_eq
  asked_eq := asked_log _ moves
  accounts := (records_log (create pipe inert) moves).accounts

end Session

end VideoWall.Vblank
