import VideoWall.Proofs.Flushes

/-! Under which display listeners are told.

    Whoever registers a listener names a display, and the controller has one place for it, whatever
    the listener is for. A `Roll` lists the registrations beside a run, and for every notice that is
    decided on those that there were by then. `Roll.Tells` ties it to the wall: each listener is the
    last one registered for its kind of notice, and the display is that of the last registration of
    any kind. So a notice names the display that its listener was registered with, unless another
    registration has named another one since. -/

namespace VideoWall

/-- The kind of a notice. -/
def Notice.channel : Notice → Channel
  | .vsync _ => .vsync
  | .refresh => .refresh
  | .hotplug _ => .hotplug

/-- A registration: what the listener is for, its tag, and the display that is named. -/
structure Registration where
  channel : Channel
  tag : String
  display : DisplayId
  deriving DecidableEq

/-- The registrations so far, in order, and every notice that was decided on, with the registrations
    that there were by then. -/
structure Roll where
  registrations : List Registration := []
  decided : List (Delivery × List Registration) := []

/-- Listener `k` was registered for one kind of notice, and none has been registered for it
    since. -/
def Roll.Current (made : List Registration) (k : Nat) (channel : Channel) : Prop :=
  ∃ own after, made.drop k = own :: after ∧ own.channel = channel ∧
    ∀ r ∈ after, r.channel ≠ channel

namespace Roll.Current

variable {made : List Registration} {r : Registration} {k : Nat} {channel : Channel}

theorem lt_length (h : Current made k channel) : k < made.length := by
  obtain ⟨own, after, hdrop, -⟩ := h
  by_contra hk
  rw [List.drop_eq_nil_of_le (Nat.le_of_not_lt hk)] at hdrop
  cases hdrop

/-- Registrations for other kinds of notices do not matter. -/
theorem concat (h : Current made k channel) (hr : r.channel ≠ channel) :
    Current (made ++ [r]) k channel := by
  have hk := h.lt_length
  obtain ⟨own, after, hdrop, hown, hafter⟩ := h
  refine ⟨own, after ++ [r], ?_, hown, ?_⟩
  · rw [List.drop_append_of_le_length (Nat.le_of_lt hk), hdrop, List.cons_append]
  · exact List.forall_mem_append.2 ⟨hafter, List.forall_mem_singleton.2 hr⟩

/-- A new registration is the last one. -/
theorem new (made : List Registration) (r : Registration) :
    Current (made ++ [r]) made.length r.channel :=
  ⟨r, [], List.drop_left, rfl, List.forall_mem_nil _⟩

end Roll.Current

/-! ### What becomes of listeners and displays -/

namespace Controller

variable {c : Controller}

/-- A new listener is told from then on what it was registered for; all else stays. -/
theorem listener?_listen_eq (c : Controller) (channel : Channel) (listener : Nat)
    (display : DisplayId) (notice : Notice) :
    (c.listen channel listener display).listener? notice =
      if notice.channel = channel then some listener else c.listener? notice := by
  cases channel <;> cases notice <;> rfl

theorem display_listen (c : Controller) (channel : Channel) (listener : Nat)
    (display : DisplayId) : (c.listen channel listener display).display = display := by
  cases channel <;> rfl

end Controller

/-- Nothing but a registration changes the display. -/
theorem Demand.display_meet {demand : Demand} (c : Controller)
    (h : ∀ channel k display, demand ≠ .listen channel k display) :
    (demand.meet c).1.display = c.display := by
  cases demand with
  | configure | power | refresh => rfl
  | control enabled => rw [meet, Controller.control]; split <;> rfl
  | listen channel k display => exact absurd rfl (h channel k display)
  | frame refreshes => rw [meet, Controller.frame]; split <;> rfl
  | vblank time => rw [meet, Controller.vblank]; split <;> rfl
  | hotplug outputs connected =>
    rw [meet, Controller.hotplug]
    generalize c.cycle.retarget outputs (c.vsyncEnabled && c.vsyncListener.isSome) = r
    dsimp only
    split <;> rfl

namespace Wall

variable {w : Wall} {t : Task} {op : Op}

/-- The registration that a task makes, if it gets through to the controller. -/
def registers? (w : Wall) : Task → Option Registration
  | .perform (.listen channel display tag _ _) =>
    if w.held && w.controller.isSome then some ⟨channel, tag, display⟩ else none
  | _ => none

/-- Notes registrations, and what the controller decides to tell. -/
def enrolling (w : Wall) (t : Task) (r : Roll) : Roll where
  registrations := r.registrations ++ (w.registers? t).toList
  decided := r.decided ++ (w.due (w.demand? t)).map fun d => (d, r.registrations)

/-- The tags of all listeners. -/
def tags (w : Wall) : List String := w.listeners.map (·.tag)

theorem listeners_enter (w : Wall) (decide : Controller → Controller × List Delivery) :
    (w.enter decide).wall.listeners = w.listeners := by
  rcases w.enter_cases decide with ⟨-, he⟩ | ⟨c, -, he⟩ <;> rw [he]

theorem listeners_through (w : Wall) (registered : Bool)
    (decide : Controller → Controller × List Delivery) :
    (w.through registered decide).wall.listeners = w.listeners := by
  rcases w.through_cases registered decide with ⟨-, he⟩ | ⟨-, he⟩ <;> rw [he]
  exact w.listeners_enter decide

theorem listeners_asHolder {f : Controller → Effect}
    (h : ∀ c, (f c).wall.listeners = w.listeners) :
    (w.asHolder f).wall.listeners = w.listeners := by
  rcases w.asHolder_cases f with ⟨c, -, -, he⟩ | ⟨-, he⟩
  · rw [he, h c]
  · rw [he]

theorem listeners_reconcile (w : Wall) (c : Controller) :
    (w.reconcile c).listeners = w.listeners := by
  rw [reconcile]
  split <;> rfl

theorem listeners_settle (w : Wall) : w.settle.listeners = w.listeners := by
  rw [settle]
  split <;> rfl

/-- An operation that registers nobody. -/
theorem listeners_begin (mark : Nat) (h : w.registers? (.perform op) = none) :
    (w.begin mark op).wall.listeners = w.listeners := by
  cases op with
  | listen channel display tag script limit =>
    rw [begin]
    rcases w.asHolder_cases fun c => w.listen c channel display ⟨tag, script, limit⟩ with
      ⟨c, hh, hc, -⟩ | ⟨-, he⟩
    · rw [registers?, hh, hc] at h
      cases h
    · rw [he]
  | setActiveConfig | setPowerMode | ask => exact listeners_asHolder fun _ => rfl
  | control enabled =>
    refine listeners_asHolder fun c => ?_
    rw [control]
    split <;> rfl
  | vsyncUpdate | hotplugUpdate | refreshUpdate =>
    exact listeners_asHolder fun _ => w.listeners_enter _
  | present layers upload =>
    refine listeners_asHolder fun c => ?_
    rw [present]
    split
    · exact w.listeners_reconcile c
    · rfl
  | vblank | plug | requestRefresh => exact listeners_through ..
  | change i change onPresent => cases onPresent <;> rfl
  | feed => rfl
  | drop => exact listeners_settle _

theorem tags_begin (w : Wall) (mark : Nat) (op : Op) :
    (w.begin mark op).wall.tags = w.tags ++ (w.registers? (.perform op)).toList.map (·.tag) := by
  cases hr : w.registers? (.perform op) with
  | none =>
    rw [tags, listeners_begin mark hr]
    exact (List.append_nil _).symm
  | some r =>
    cases op with
    | listen channel display tag script limit =>
      obtain ⟨hthere, hr⟩ := Option.ite_none_right_eq_some.1 hr
      obtain rfl := Option.some.inj hr
      rw [Bool.and_eq_true, Option.isSome_iff_exists] at hthere
      obtain ⟨hh, c, hc⟩ := hthere
      rw [begin, asHolder, hh, hc]
      exact List.map_append
    | _ => cases hr

/-- Every listener keeps its tag, and a registration adds one. -/
theorem tags_exec (w : Wall) (mark : Nat) (t : Task) :
    (w.exec mark t).wall.tags = w.tags ++ (w.registers? t).toList.map (·.tag) := by
  have hsame : ∀ v : Wall, v.listeners = w.listeners → v.tags = w.tags ++ [] :=
    fun v hv => by rw [tags, hv, List.append_nil, tags]
  cases t with
  | perform op => exact w.tags_begin mark op
  | deliver d => exact (map_listeners_deliver (fun _ _ => rfl) w d).trans (List.append_nil _).symm
  | report | finish | await | group => exact hsame _ rfl
  | leave | endFrame => exact hsame _ (listeners_settle _)
  | dispatch i job =>
    refine hsame _ ?_
    rw [exec]
    rcases w.dispatch_cases i job with ⟨log, he, -⟩ | ⟨k, -, -, he⟩ <;> rw [he]
    rfl
  | work i =>
    refine hsame _ ?_
    rw [exec]
    rcases w.work_cases i with ⟨he, -⟩ | ⟨_, _, _, _, -, -, -, _, _, _, he, -⟩ <;> rw [he]
    rfl
  | arrive i r =>
    refine hsame _ ?_
    rw [exec]
    rcases w.arrive_cases i r with ⟨he, -⟩ | he
    · rw [he]
      rfl
    · rw [he]
      rfl
  | poll i =>
    refine hsame _ ?_
    rw [exec]
    rcases w.poll_cases i with ⟨he, -⟩ | ⟨l, r, m, -, -, he⟩
    · rw [he]
    · rw [he]
      rfl
  | item i x =>
    refine hsame _ ?_
    rw [exec]
    rcases w.item_cases i x with ⟨log, he, -⟩ | ⟨l, f, log, -, -, ⟨-, he⟩ | ⟨call, -, he⟩⟩
    · rw [he]
    · rw [he]
      rfl
    · rw [he]
      exact listeners_enter ..
  | arm i =>
    refine hsame _ ?_
    rw [exec]
    rcases w.arm_cases i with ⟨he, -⟩ | ⟨l, -, he⟩
    · rw [he]
    · rw [he]
      rfl

/-- A task that does not demand that somebody listens registers nobody. -/
theorem registers?_eq_none
    (h : ∀ channel k display, w.demand? t ≠ some (.listen channel k display)) :
    w.registers? t = none := by
  cases hr : w.registers? t with
  | none => rfl
  | some r =>
    cases t with
    | perform op =>
      cases op with
      | listen channel display tag script limit =>
        obtain ⟨hthere, -⟩ := Option.ite_none_right_eq_some.1 hr
        exact absurd (if_pos ((Bool.and_eq_true ..).mp hthere).1) (h channel _ display)
      | _ => cases hr
    | _ => cases hr

/-- Who is demanded to listen is registered, under the next number. -/
theorem registers?_of_demand? {c : Controller} (hc : w.controller = some c) {channel : Channel}
    {k : Nat} {display : DisplayId} (h : w.demand? t = some (.listen channel k display)) :
    k = w.listeners.length ∧ ∃ tag, w.registers? t = some ⟨channel, tag, display⟩ := by
  obtain ⟨tag, script, limit, rfl, hh, rfl⟩ := eq_listen_of_demand? h
  refine ⟨rfl, tag, ?_⟩
  rw [registers?, hh, hc]
  rfl

/-- Whoever is told something is told by the tag of the listener. -/
theorem getElem?_tags_of_told {mark k : Nat} {tag : String} {display : DisplayId} {notice : Notice}
    (hdec : (w.exec mark t).Decides w t.delivery? (w.demand? t))
    (h : .told k tag display notice ∈ (w.exec mark t).events) : w.tags[k]? = some tag := by
  have hd : ⟨k, display, notice⟩ ∈ Event.deliveries (w.exec mark t).events :=
    List.mem_filterMap.2 ⟨_, h, rfl⟩
  rw [hdec.events, Option.mem_toList] at hd
  cases t with
  | deliver d =>
    rw [exec] at h
    rcases w.deliver_cases d with ⟨he, -⟩ | ⟨l, hl, hcases⟩
    · rw [he] at h
      cases h
    · have hmem : .told k tag display notice ∈
          [Event.told d.listener l.tag d.display d.notice] := by
        rcases hcases with ⟨-, he⟩ | ⟨left, -, he⟩ <;> rw [he] at h <;> exact h
      obtain ⟨rfl, rfl, -⟩ := Event.told.inj (List.mem_singleton.1 hmem)
      rw [tags, List.getElem?_map, hl]
      rfl
  | _ => cases hd

end Wall

/-! ### Over a run -/

namespace Roll

/-- The display of a controller is that of the last registration, and each of its listeners is the
    last one registered for its kind of notice. -/
structure Fits (made : List Registration) (c : Controller) : Prop where
  display_eq : c.display = (made.getLast?.map (·.display)).getD {}
  current : ∀ notice k, c.listener? notice = some k → Current made k notice.channel

namespace Fits

variable {made : List Registration} {c : Controller} {demand : Demand}

/-- Anything else is demanded but that somebody listens. -/
theorem meet (h : Fits made c) (hd : ∀ channel k display, demand ≠ .listen channel k display) :
    Fits made (demand.meet c).1 where
  display_eq := (demand.display_meet c hd).trans h.display_eq
  current := by
    intro notice k hk
    rcases Demand.listener?_meet hk with hk | ⟨channel, display, rfl⟩
    · exact h.current notice k hk
    · exact absurd rfl (hd channel k display)

/-- Somebody is registered. -/
theorem listen (h : Fits made c) (r : Registration) :
    Fits (made ++ [r]) (c.listen r.channel made.length r.display) where
  display_eq := by
    rw [c.display_listen, List.getLast?_concat]
    rfl
  current := by
    intro notice k hk
    rw [c.listener?_listen_eq] at hk
    split at hk
    · next hn =>
      obtain rfl := Option.some.inj hk
      exact hn ▸ .new made r
    · next hn => exact (h.current notice k hk).concat (Ne.symm hn)

/-- What is told goes to the last one who was registered for it, under the display of the last
    registration of all. -/
theorem of_mem_meet (h : Fits made c) {d : Delivery} (hd : d ∈ (demand.meet c).2) :
    Current made d.listener d.notice.channel ∧
      made.getLast?.map (·.display) = some d.display := by
  have hs := Demand.sends_of_mem_meet hd
  have hcurrent := h.current d.notice d.listener hs.listener_eq
  refine ⟨hcurrent, ?_⟩
  have hlast : made.getLast? = some (made.getLast _) :=
    List.getLast?_eq_some_getLast (List.ne_nil_of_length_pos (Nat.zero_lt_of_lt hcurrent.lt_length))
  rw [hs.display_eq, h.display_eq, hlast]
  rfl

end Fits

/-- How a roll fits a wall, what is left to do and what was told. -/
structure Tells (w : Wall) (ts : List Task) (es : List Event) (r : Roll) : Prop where
  tags_eq : w.tags = r.registrations.map (·.tag)
  fits : ∀ c, w.controller = some c → Fits r.registrations c
  decided : ∀ x ∈ r.decided, x.2 <+: r.registrations ∧
    Current x.2 x.1.listener x.1.notice.channel ∧ x.2.getLast?.map (·.display) = some x.1.display
  told_perm : (Event.deliveries es ++ Task.deliveries ts).Perm (r.decided.map Prod.fst)
  tagged : ∀ k tag display notice, .told k tag display notice ∈ es →
    w.tags[k]? = some tag

namespace Tells

variable {w : Wall} {t : Task} {ts us : List Task} {es fs : List Event} {r : Roll}

theorem length_eq (h : r.Tells w ts es) : w.listeners.length = r.registrations.length := by
  simpa [Wall.tags] using congrArg List.length h.tags_eq

/-- What is left to do and what happened may be in another form. -/
theorem of_eq (h : r.Tells w ts es) (hts : Task.deliveries us = Task.deliveries ts)
    (hes : Event.deliveries fs = Event.deliveries es) (hmem : ∀ e ∈ fs, e ∈ es) :
    r.Tells w us fs where
  tags_eq := h.tags_eq
  fits := h.fits
  decided := h.decided
  told_perm := by
    rw [hts, hes]
    exact h.told_perm
  tagged := fun k tag display notice he => h.tagged k tag display notice (hmem _ he)

/-- The controller, once a task is done. -/
theorem fits_exec (h : r.Tells w (t :: ts) es)
    (hdec : (w.exec es.length t).Decides w t.delivery? (w.demand? t)) {c' : Controller}
    (hc' : (w.exec es.length t).wall.controller = some c') :
    Fits (w.enrolling t r).registrations c' := by
  obtain ⟨c, hc, rfl⟩ := hdec.controller c' hc'
  have hfits := h.fits c hc
  by_cases hl : ∃ channel k display, w.demand? t = some (.listen channel k display)
  · obtain ⟨channel, k, display, hdem⟩ := hl
    obtain ⟨rfl, tag, hreg⟩ := Wall.registers?_of_demand? hc hdem
    rw [hdem, Wall.enrolling, hreg, h.length_eq]
    exact hfits.listen ⟨channel, tag, display⟩
  · have hnot : ∀ channel k display, w.demand? t ≠ some (.listen channel k display) :=
      fun _ _ _ hdem => hl ⟨_, _, _, hdem⟩
    rw [Wall.enrolling, Wall.registers?_eq_none hnot]
    simp only [Option.toList_none, List.append_nil]
    cases hdem : w.demand? t with
    | none => exact hfits
    | some demand => exact hfits.meet fun channel k display hd => hnot channel k display (hd ▸ hdem)

/-- A task is done. -/
theorem exec (h : r.Tells w (t :: ts) es)
    (hdec : (w.exec es.length t).Decides w t.delivery? (w.demand? t)) :
    (w.enrolling t r).Tells (w.exec es.length t).wall ((w.exec es.length t).tasks ++ ts)
      (es ++ (w.exec es.length t).events) := by
  have htags := w.tags_exec es.length t
  have hgrow : r.registrations <+: (w.enrolling t r).registrations := List.prefix_append ..
  constructor
  · rw [htags, h.tags_eq, Wall.enrolling, List.map_append]
  · exact fun c' hc' => h.fits_exec hdec hc'
  · intro x hx
    rcases List.mem_append.1 hx with hx | hx
    · obtain ⟨hmade, hx⟩ := h.decided x hx
      exact ⟨hmade.trans hgrow, hx⟩
    · obtain ⟨d, hd, rfl⟩ := List.mem_map.1 hx
      obtain ⟨demand, c, -, hc, hdue⟩ := Wall.exists_meet_of_mem_due hd
      exact ⟨hgrow, (h.fits c hc).of_mem_meet (hdue ▸ hd)⟩
  · obtain ⟨rest, hrest, hnil⟩ := hdec.tasks
    have htold := h.told_perm
    rw [Task.deliveries_cons] at htold
    rw [hrest, Event.deliveries_append, hdec.events, Task.deliveries_append,
      Task.deliveries_append, Task.deliveries_map_deliver, hnil, List.append_nil, Wall.enrolling,
      List.map_append, List.map_map]
    have hdue : (w.due (w.demand? t)).map (Prod.fst ∘ fun d => (d, r.registrations)) =
        w.due (w.demand? t) := List.map_id _
    rw [hdue]
    -- what is due comes before what is left to do, but behind all that was decided on
    refine (List.perm_append_comm.append_left _).trans ?_
    rw [← List.append_assoc, List.append_assoc (Event.deliveries es)]
    exact htold.append_right _
  · intro k tag display notice he
    have htag : w.tags[k]? = some tag := by
      rcases List.mem_append.1 he with he | he
      · exact h.tagged k tag display notice he
      · exact Wall.getElem?_tags_of_told hdec he
    rw [htags, List.getElem?_append_left (List.getElem?_eq_some_iff.1 htag).1, htag]

end Tells

/-- The listener of a notice was the last one registered for its kind, by the time that it was
    decided on, and the display is that of the last registration by then. -/
theorem Current.exists_own {made : List Registration} {d : Delivery}
    (h : Current made d.listener d.notice.channel)
    (hlast : made.getLast?.map (·.display) = some d.display) :
    ∃ own after, made.drop d.listener = own :: after ∧ own.channel = d.notice.channel ∧
      (∀ r ∈ after, r.channel ≠ d.notice.channel) ∧
      d.display = (after.getLast?.getD own).display := by
  have hk := h.lt_length
  obtain ⟨own, after, hdrop, hown, hafter⟩ := h
  refine ⟨own, after, hdrop, hown, hafter, ?_⟩
  have hlast' : made.getLast? = some (after.getLast?.getD own) := by
    rw [← List.getLast?_cons, ← hdrop, List.getLast?_drop, if_neg (Nat.not_le_of_lt hk)]
  rw [hlast'] at hlast
  exact (Option.some.inj hlast).symm

end Roll

namespace Wall

variable {outputs : List Output} {policy : Policy} {n : Noted Roll}

/-- The roll fits whatever a new wall comes to. -/
theorem Brings.roll_tells (h : (create outputs policy).Brings enrolling {} n) :
    n.notes.Tells n.run.wall n.run.tasks n.run.events := by
  refine (h.deciding (P := fun w ts es r => r.Tells w ts es) ?_ ?_ ?_ ?_ ?_ ?_).1
  · refine ⟨rfl, ?_, List.forall_mem_nil _, .refl _, fun k tag display notice he => by cases he⟩
    rintro c ⟨⟩
    exact ⟨rfl, fun notice k hk => by cases notice <;> cases hk⟩
  · exact fun v op es r hr => hr.of_eq rfl rfl fun e he => he
  · intro v ts op reply es r hr
    exact hr.of_eq (Task.deliveries_concat_report ts op reply).symm rfl fun e he => he
  · intro v tiles es r hr
    exact hr.of_eq (Task.deliveries_map_poll tiles) rfl fun e he => he
  · intro v mark ts es r hr
    have hnotes : v.enrolling (.group mark) r = r := by
      simp [enrolling, registers?, demand?, due]
    rw [hnotes]
    refine hr.of_eq rfl (Event.deliveries_take_grouped mark es) fun e he => ?_
    rcases List.mem_append.1 he with he | he
    · exact List.mem_of_mem_take he
    · exact List.mem_of_mem_drop (List.mem_mergeSort.1 he)
  · exact fun v t ts es r _ hdec hr => hr.exec hdec

/-- Whatever a new wall comes to, by whatever operations of the host and of scripts: the listeners
    are those that were registered, and who is told something was registered for that kind of notice
    and under the tag that it is told by. What was told and is about to be told is what was decided
    on. A notice is for the last listener that had been registered for its kind by then, and it
    names the display of the last registration that had been made by then, for whatever kind of
    notice; so it names the display of its own listener as long as no later registration has named
    another one. -/
theorem Brings.told_under_last_display (h : (create outputs policy).Brings enrolling {} n) :
    let made := n.notes.registrations
    n.run.wall.tags = made.map (·.tag) ∧
    (∀ k tag display notice, .told k tag display notice ∈ n.run.events →
      ∃ own, made[k]? = some own ∧ own.tag = tag ∧ own.channel = notice.channel) ∧
    (Event.deliveries n.run.events ++ Task.deliveries n.run.tasks).Perm
      (n.notes.decided.map Prod.fst) ∧
    ∀ d byThen, (d, byThen) ∈ n.notes.decided → byThen <+: made ∧
      ∃ own after, byThen.drop d.listener = own :: after ∧ own.channel = d.notice.channel ∧
        (∀ r ∈ after, r.channel ≠ d.notice.channel) ∧
        d.display = (after.getLast?.getD own).display ∧
        ((∀ r ∈ after, r.display = own.display) → d.display = own.display) := by
  have ht := h.roll_tells
  refine ⟨ht.tags_eq, ?_, ht.told_perm, ?_⟩
  · intro k tag display notice he
    have hmem : ⟨k, display, notice⟩ ∈ n.notes.decided.map Prod.fst :=
      ht.told_perm.mem_iff.1 (List.mem_append_left _ (List.mem_filterMap.2 ⟨_, he, rfl⟩))
    obtain ⟨⟨d, byThen⟩, hx, rfl⟩ := List.mem_map.1 hmem
    obtain ⟨⟨later, hmade⟩, hcurrent, -⟩ := ht.decided _ hx
    have hk := hcurrent.lt_length
    obtain ⟨own, after, hdrop, hchannel, -⟩ := hcurrent
    have hown : n.notes.registrations[k]? = some own := by
      rw [← hmade, List.getElem?_append_left hk, ← List.head?_drop, hdrop]
      rfl
    have htag := ht.tagged k tag display notice he
    rw [ht.tags_eq, List.getElem?_map, hown] at htag
    exact ⟨own, hown, Option.some.inj htag, hchannel⟩
  · intro d byThen hx
    obtain ⟨hgrow, hcurrent, hlast⟩ := ht.decided _ hx
    obtain ⟨own, after, hdrop, hown, hafter, hdisplay⟩ := hcurrent.exists_own hlast
    refine ⟨hgrow, own, after, hdrop, hown, hafter, hdisplay, fun hsame => ?_⟩
    rw [hdisplay]
    cases hl : after.getLast? with
    | none => rfl
    | some r => exact hsame r (List.mem_of_getLast? hl)

/-- A vsync listener that registers a refresh listener while it is told something. Before that, a
    hotplug completes the cycle and turns the wall connected. -/
def relabelled : Noted Roll :=
  [.listen .hotplug ⟨2⟩ "hotplug" [] 0,
    .listen .vsync ⟨1⟩ "vsync" [.listen .refresh ⟨5⟩ "refresh" [] 0] 1, .control true,
    .change 0 { connected := some true } none, .change 1 { connected := some true } none,
    .hotplugUpdate false, .vsyncUpdate 100, .change 1 { connected := some false } none,
    .hotplugUpdate true].foldl (Noted.perform enrolling)
      ⟨(create [{ connected := false }, { connected := false }] {}).resting, {}⟩

/-- The hotplug is told under the display that was named with the vsync listener, not under its own
    and not under that of the refresh listener, which comes too late. -/
theorem told_under_last_display_relabelled :
    (create [{ connected := false }, { connected := false }] {}).Brings enrolling {} relabelled ∧
      relabelled.notes.registrations = [⟨.hotplug, "hotplug", ⟨2⟩⟩, ⟨.vsync, "vsync", ⟨1⟩⟩,
        ⟨.refresh, "refresh", ⟨5⟩⟩] ∧
      Event.deliveries relabelled.run.events = [⟨1, ⟨1⟩, .vsync 100⟩, ⟨0, ⟨1⟩, .hotplug true⟩] ∧
      [⟨1, ⟨1⟩, .vsync 100⟩, ⟨0, ⟨1⟩, .hotplug true⟩].Perm
        (relabelled.notes.decided.map Prod.fst) := by
  have hbrings : (create [{ connected := false }, { connected := false }] {}).Brings enrolling {}
      relabelled := by
    refine ((((((((Brings.start.perform rfl _).perform ?_ _).perform ?_ _).perform ?_
      _).perform ?_ _).perform ?_ _).perform ?_ _).perform ?_ _).perform ?_ _
    all_goals decide +kernel
  have htold : Event.deliveries relabelled.run.events =
      [⟨1, ⟨1⟩, .vsync 100⟩, ⟨0, ⟨1⟩, .hotplug true⟩] := by decide +kernel
  have hnothing : Task.deliveries relabelled.run.tasks = [] := by decide +kernel
  obtain ⟨-, -, hperm, -⟩ := hbrings.told_under_last_display
  rw [htold, hnothing, List.append_nil] at hperm
  exact ⟨hbrings, by decide +kernel, htold, hperm⟩

/-- A vsync listener and a refresh listener are registered, each with a display of its own. -/
def labelled : Noted Roll :=
  [.listen .vsync ⟨1⟩ "vsync" [] 0, .listen .refresh ⟨2⟩ "refresh" [] 0, .control true,
    .vsyncUpdate 100].foldl (Noted.perform enrolling) ⟨(create [{}] {}).resting, {}⟩

/-- The vsync listener is told under the display of the refresh listener. -/
theorem told_under_other_display :
    labelled.notes.registrations = [⟨.vsync, "vsync", ⟨1⟩⟩, ⟨.refresh, "refresh", ⟨2⟩⟩] ∧
      Event.deliveries labelled.run.events = [⟨0, ⟨2⟩, .vsync 100⟩] ∧
      ¬ ∀ d ∈ Event.deliveries labelled.run.events,
        labelled.notes.registrations[d.listener]?.map (·.display) = some d.display := by
  decide +kernel

end Wall

end VideoWall
