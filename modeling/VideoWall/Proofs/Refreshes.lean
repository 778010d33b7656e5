import VideoWall.Proofs.Decisions
import VideoWall.Proofs.Hotplug
import VideoWall.Proofs.Registry

/-! Which refresh requests are passed on.

    A refresh request is passed on while the wall is fully powered and connected, but whether it is
    connected the controller takes from what it last told its host, and without a hotplug listener
    it tells nothing. `Gate` notes beside a run which refreshes are due by the outputs themselves,
    and two things about hotplugs: whether every change was reported at once, and whether somebody
    listened whenever the wall got its first or lost its last connected output. As long as both
    hold, exactly the refreshes that are due are told: `Wall.Brings.refreshes_due`.
    `refresh_withheld` shows that prompt reports alone are not enough. -/

namespace VideoWall

/-- Whether a delivery is about a refresh. -/
def Delivery.isRefresh (d : Delivery) : Bool := d.notice == .refresh

/-- The refreshes that were told, in order. -/
def Event.refreshes (es : List Event) : List Delivery := (deliveries es).filter Delivery.isRefresh

/-- The refreshes that are about to be told, in order. -/
def Task.refreshes (ts : List Task) : List Delivery := (deliveries ts).filter Delivery.isRefresh

theorem Event.refreshes_append (es fs : List Event) :
    refreshes (es ++ fs) = refreshes es ++ refreshes fs := by
  rw [refreshes, deliveries_append, List.filter_append]
  rfl

theorem Task.refreshes_append (ts us : List Task) :
    refreshes (ts ++ us) = refreshes ts ++ refreshes us := by
  rw [refreshes, deliveries_append, List.filter_append]
  rfl

theorem Task.refreshes_cons (t : Task) (ts : List Task) :
    refreshes (t :: ts) = t.delivery?.toList.filter Delivery.isRefresh ++ refreshes ts := by
  rw [refreshes, deliveries_cons, List.filter_append]
  rfl

theorem Task.refreshes_tail {ts : List Task} (h : refreshes ts = []) : refreshes ts.tail = [] := by
  cases ts with
  | nil => exact h
  | cons t ts =>
    rw [refreshes_cons] at h
    exact (List.append_eq_nil_iff.1 h).2

theorem Task.refreshes_eq_nil {ts : List Task} (h : deliveries ts = []) : refreshes ts = [] := by
  rw [refreshes, h]
  rfl

/-! ### What is noted -/

/-- What is noted about connections and refreshes: whether some output was connected when the last
    hotplug was reported, the connection change that has not been reported yet, whether every
    change was reported before anything else happened, whether somebody listened for hotplugs
    whenever a report found the wall newly connected or disconnected, and the refreshes due. -/
structure Gate where
  aggregate : Bool
  unreported : Option Bool := none
  prompt : Bool := true
  heard : Bool := true
  due : List Delivery := []

/-- A new wall counts its connected outputs. -/
def Gate.start (outputs : List Output) : Gate where
  aggregate := outputs.any (·.connected)

/-- The output that an operation plugs or unplugs, reported or not. -/
def Op.plugs? : Op → Option (Nat × Bool)
  | .plug i connected => some (i, connected)
  | .change i c _ => c.connected.map fun connected => (i, connected)
  | _ => none

namespace Wall

/-- The connections once an operation has begun. -/
def pluggedBy (w : Wall) (op : Op) : List Bool :=
  op.plugs?.elim w.plugged fun p => w.plugged.set p.1 p.2

/-- The state that an operation changes a connection to, if it does. -/
def switches? (w : Wall) (op : Op) : Option Bool :=
  op.plugs?.bind fun p => if w.plugged[p.1]? = some !p.2 then some p.2 else none

/-- Whether an operation may follow: a change that is not reported yet is reported right now, and
    nobody reports a connected output while there is none. -/
def isPrompt (w : Wall) (unreported : Option Bool) : Op → Bool
  | .hotplugUpdate connected =>
    unreported == some connected && w.reports (.hotplugUpdate connected) ||
      unreported.isNone && (!connected || w.isConnected)
  | _ => unreported.isNone

/-- Whether an operation asks the controller to pass a refresh request on. -/
def asksRefresh (w : Wall) : Op → Bool
  | .refreshUpdate => w.held
  | .requestRefresh i => w.outputs[i]?.any (·.onRefresh.isSome)
  | _ => false

/-- The refresh that an operation has to set off: it asks for one while the wall is fully powered,
    some output is connected and somebody listens. -/
def refreshDue (w : Wall) (op : Op) : List Delivery :=
  w.controller.elim [] fun c =>
    if w.asksRefresh op && c.power.isOn && w.isConnected then
      c.refreshListener.toList.map fun listener => ⟨listener, c.display, .refresh⟩
    else []

/-- What an operation adds; other tasks add nothing. -/
def gating (w : Wall) : Task → Gate → Gate
  | .perform op, g =>
    let connected := (w.pluggedBy op).any id
    let listened := w.controller.any (·.hotplugListener.isSome)
    { aggregate := if w.reports op then connected else g.aggregate
      unreported := if w.reports op then none else w.switches? op
      prompt := g.prompt && w.isPrompt g.unreported op
      heard := g.heard && (!w.reports op || connected == g.aggregate || listened)
      due := g.due ++ w.refreshDue op }
  | _, g => g

end Wall

/-! ### Connections -/

namespace Wall

variable {w : Wall} {op : Op} {b : Bool}

/-- An operation changes the connection of the output that it plugs, and no other. -/
theorem plugged_begin (w : Wall) (mark : Nat) (op : Op) :
    (w.begin mark op).wall.plugged = w.pluggedBy op := by
  have hlasting := Output.lasting_connected
  cases op with
  | setActiveConfig config =>
    exact view_asHolder fun c _ => w.view_setOutputs fun o => o.connected_setActiveConfig config
  | setPowerMode mode =>
    exact view_asHolder fun c _ => w.view_setOutputs fun o => o.connected_setPowerMode mode
  | control enabled =>
    refine view_asHolder (g := (·.connected)) fun c _ => ?_
    rw [control]
    split
    · rfl
    · exact w.view_setOutputs fun o => o.connected_control enabled
  | listen channel display tag script limit =>
    exact view_asHolder fun c _ => w.view_setOutputs fun o => o.connected_register channel
  | present layers upload =>
    exact view_asHolder fun c _ => w.view_present hlasting c layers upload mark
  | vsyncUpdate | hotplugUpdate | refreshUpdate => exact view_asHolder fun _ _ => w.view_enter _
  | ask question => exact view_asHolder fun _ _ => rfl
  | vblank | requestRefresh => exact w.view_through _ _
  | plug i connected =>
    exact (view_through ..).trans (w.plugged_setOutput_eq_set i fun o => rfl)
  | change i change onPresent =>
    have hset : (w.setOutput i (·.change change)).plugged =
        w.pluggedBy (.change i change none) := by
      rw [pluggedBy, Op.plugs?]
      cases hc : change.connected with
      | none => exact w.view_setOutput i fun o => by rw [Output.change, hc]; rfl
      | some b => exact w.plugged_setOutput_eq_set i fun o => by rw [Output.change, hc]; rfl
    cases onPresent with
    | none => exact hset
    | some script =>
      have htile := (w.setOutput i (·.change change)).plugged_setTile i
        (f := fun t => { t with onPresent := script }) fun t _ => rfl
      exact htile.trans hset
  | feed i readings => rfl
  | drop => exact view_settle hlasting _

/-- An operation that changes a connection. -/
theorem exists_of_switches (h : w.switches? op = some b) :
    ∃ i, w.plugged[i]? = some (!b) ∧ w.pluggedBy op = w.plugged.set i b := by
  obtain ⟨⟨i, b'⟩, hp, hif⟩ := Option.bind_eq_some_iff.1 h
  obtain ⟨hi, hb⟩ := Option.ite_none_right_eq_some.1 hif
  cases hb
  exact ⟨i, hi, by rw [pluggedBy, hp]; rfl⟩

/-- An operation that changes no connection, though it may plug an output. -/
theorem pluggedBy_of_not_switches (h : w.switches? op = none) : w.pluggedBy op = w.plugged := by
  rw [switches?] at h
  rw [pluggedBy]
  cases hp : op.plugs? with
  | none => rfl
  | some p =>
    rw [hp, Option.bind_some] at h
    refine List.ext_getElem? fun j => ?_
    rw [Option.elim_some, List.getElem?_set]
    split
    · next hj =>
      -- what is written is what is there already
      subst hj
      split at h
      · cases h
      · next hne =>
        cases hw : w.plugged[p.1]? with
        | none => rw [if_neg (Nat.not_lt.2 (List.getElem?_eq_none_iff.1 hw))]
        | some x =>
          rw [if_pos (List.getElem?_eq_some_iff.1 hw).1]
          rw [hw] at hne
          cases x <;> cases hb : p.2 <;> simp_all
    · rfl

/-- Whoever plugs an output in has a connected wall. -/
theorem any_pluggedBy_of_switches (h : w.switches? op = some true) :
    (w.pluggedBy op).any id = true := by
  obtain ⟨i, hi, hp⟩ := exists_of_switches h
  have hlt : i < w.plugged.length := (List.getElem?_eq_some_iff.1 hi).1
  rw [hp, List.any_eq_true]
  exact ⟨true, List.mem_set hlt true, rfl⟩

/-- Whoever unplugs an output had a connected wall. -/
theorem isConnected_of_switches (h : w.switches? op = some false) : w.isConnected = true := by
  obtain ⟨i, hi, -⟩ := exists_of_switches h
  rw [isConnected_eq, List.any_eq_true]
  exact ⟨true, List.mem_of_getElem? hi, rfl⟩

end Wall

/-! ### What is decided -/

/-- A report makes the connection state right if it is right itself, or the state was right. -/
theorem heed_eq_any {plugged : List Bool} {flag b : Bool} (hb : b = true → plugged.any id = true)
    (hflag : b = false → plugged.any id = true → flag = true) :
    heed flag (plugged.count true) b = plugged.any id := by
  rw [heed]
  split
  · next h0 =>
    -- nothing is connected any more
    have hnone : plugged.any id = false := by
      rw [List.any_eq_false]
      intro x hx hxt
      obtain rfl : x = true := hxt
      exact List.count_eq_zero.1 h0 hx
    rw [hnone]
    cases b with
    | false => rfl
    | true => exact (hb rfl).symm.trans hnone
  · next h0 =>
    have hany : plugged.any id = true :=
      List.any_eq_true.2 ⟨true, List.count_pos_iff.1 (Nat.pos_of_ne_zero h0), rfl⟩
    rw [hany]
    cases b with
    | false => rw [hflag rfl hany, Bool.or_false]
    | true => exact Bool.or_true _

namespace Controller

variable {c : Controller}

/-- With a listener the controller heeds a hotplug, without one it does not. -/
theorem connected_hotplug (c : Controller) (outputs : Nat) (b : Bool) :
    (c.hotplug outputs b).1.connected =
      if c.hotplugListener.isSome then heed c.connected outputs b else c.connected := by
  obtain ⟨flushed, -, heq⟩ := c.hotplug_eq outputs b
  rw [heq]
  cases ht : c.turns outputs b with
  | false =>
    rw [heed_of_not_turns ht, ite_self]
  | true =>
    cases c.hotplugListener with
    | none => rfl
    | some listener => exact (heed_of_turns ht).1.symm

end Controller

namespace Demand

variable {c : Controller} {demand : Demand}

/-- Only a hotplug changes the connection state. -/
theorem connected_meet (h : ∀ outputs b, demand ≠ .hotplug outputs b) :
    (demand.meet c).1.connected = c.connected := by
  cases demand with
  | configure | power | refresh => rfl
  | control enabled => rw [meet, Controller.control]; split <;> rfl
  | listen channel listener display => cases channel <;> rfl
  | frame refreshes => rw [meet, Controller.frame]; split <;> rfl
  | vblank time => rw [meet, Controller.vblank]; split <;> rfl
  | hotplug outputs b => exact absurd rfl (h outputs b)

/-- Only a refresh request has a refresh told, and then nothing else. -/
theorem refreshes_meet (demand : Demand) (c : Controller) :
    (demand.meet c).2.filter Delivery.isRefresh =
        (match demand with
          | .refresh => c.refresh
          | _ => []) ∧
      (demand.meet c).2.tail.filter Delivery.isRefresh = [] := by
  have hnone : ∀ ds : List Delivery, (∀ d ∈ ds, d.isRefresh = false) →
      ds.filter Delivery.isRefresh = [] ∧ ds.tail.filter Delivery.isRefresh = [] := by
    intro ds hds
    refine ⟨List.filter_eq_nil_iff.2 fun d hd => ?_, List.filter_eq_nil_iff.2 fun d hd => ?_⟩
    · exact Bool.eq_false_iff.1 (hds d hd)
    · exact Bool.eq_false_iff.1 (hds d (List.mem_of_mem_tail hd))
  cases demand with
  | configure | power | control | listen | frame => exact ⟨rfl, rfl⟩
  | vblank time =>
    refine hnone _ fun d hd => ?_
    rw [meet, Controller.vblank] at hd
    split at hd
    · obtain ⟨t, -, rfl⟩ := List.mem_map.1 hd
      rfl
    · cases hd
  | hotplug outputs b =>
    refine hnone _ fun d hd => ?_
    rcases Controller.mem_hotplug hd with ⟨_, _, -, rfl⟩ | ⟨_, -, rfl⟩ <;> rfl
  | refresh =>
    rw [meet, Controller.refresh]
    split
    · cases c.refreshListener <;> exact ⟨rfl, rfl⟩
    · exact ⟨rfl, rfl⟩

end Demand

namespace Wall

variable {w : Wall} {op : Op} {t : Task} {c : Controller}

/-- What a report demands: the controller is told how many outputs are connected by now. -/
theorem exists_hotplug_of_reports (h : w.reports op = true) :
    ∃ b, w.demand? (.perform op) = some (.hotplug ((w.pluggedBy op).count true) b) ∧
      (op = .hotplugUpdate b ∨ ∃ i, op = .plug i b) := by
  cases op with
  | hotplugUpdate b =>
    rw [reports, Bool.and_eq_true] at h
    refine ⟨b, ?_, .inl rfl⟩
    rw [demand?, if_pos h.1, connectedCount_eq]
    rfl
  | plug i b =>
    rw [reports, Bool.and_eq_true] at h
    have hplugged := w.plugged_setOutput_eq_set i (f := fun o => { o with connected := b })
      fun o => rfl
    refine ⟨b, ?_, .inr ⟨i, rfl⟩⟩
    rw [demand?, any_onHotplug_connect, if_pos h.2, connectedCount_eq, hplugged]
    rfl
  | _ => cases h

/-- Nothing else does. -/
theorem ne_hotplug_of_not_reports (hc : w.controller = some c) (h : w.reports op = false)
    {demand : Demand} (hd : w.demand? (.perform op) = some demand) (outputs : Nat) (b : Bool) :
    demand ≠ .hotplug outputs b := by
  rintro rfl
  cases op with
  | hotplugUpdate b =>
    obtain ⟨hh, -⟩ := Option.ite_none_right_eq_some.1 hd
    rw [reports, hh, hc] at h
    cases h
  | plug i b =>
    rw [demand?, any_onHotplug_connect] at hd
    obtain ⟨hreg, -⟩ := Option.ite_none_right_eq_some.1 hd
    rw [reports, hreg, hc] at h
    cases h
  | _ => simp [demand?] at hd

/-- Only a refresh request demands that a refresh is passed on. -/
theorem demand?_eq_refresh_iff (w : Wall) (op : Op) :
    w.demand? (.perform op) = some .refresh ↔ w.asksRefresh op = true := by
  cases op <;> simp [demand?, asksRefresh]

/-- What an operation has the controller pass on, while the controller has the connections right. -/
theorem filter_due (op : Op)
    (h : ∀ c, w.controller = some c → w.asksRefresh op = true → c.connected = w.isConnected) :
    (w.due (w.demand? (.perform op))).filter Delivery.isRefresh = w.refreshDue op := by
  rw [due, refreshDue]
  cases hc : w.controller with
  | none => cases w.demand? (.perform op) <;> rfl
  | some c =>
    cases hask : w.asksRefresh op with
    | true =>
      rw [(w.demand?_eq_refresh_iff op).2 hask, ← h c hc hask]
      exact (Demand.refreshes_meet .refresh c).1.trans (by simp [Controller.refresh, Bool.and_comm])
    | false =>
      have hnot : w.demand? (.perform op) ≠ some .refresh := by
        rw [Ne, demand?_eq_refresh_iff, hask]
        exact Bool.noConfusion
      cases hd : w.demand? (.perform op) with
      | none => rfl
      | some demand =>
        refine (Demand.refreshes_meet demand c).1.trans ?_
        cases demand with
        | refresh => exact absurd hd hnot
        | _ => rfl

end Wall

/-! ### Over a run -/

/-- A step moves the refreshes that it is about to tell to those that are told, and what it has the
    controller tell comes first of all that is left to do. -/
theorem Effect.Decides.refreshes {w : Wall} {t : Task} {ts : List Task} {demand : Option Demand}
    {e : Effect} (h : e.Decides w t.delivery? demand) (hts : Task.refreshes ts = [])
    (es : List Event) :
    Event.refreshes (es ++ e.events) ++ Task.refreshes (e.tasks ++ ts) =
        Event.refreshes es ++ Task.refreshes (t :: ts) ++
          (w.due demand).filter Delivery.isRefresh ∧
      Task.refreshes (e.tasks ++ ts).tail = [] := by
  obtain ⟨rest, hrest, hnil⟩ := h.tasks
  have hmap : ∀ ds : List Delivery,
      Task.refreshes (ds.map .deliver) = ds.filter Delivery.isRefresh := by
    intro ds
    rw [Task.refreshes, Task.deliveries_map_deliver]
  have hrests : Task.refreshes (rest ++ ts) = [] := by
    rw [Task.refreshes_append, Task.refreshes_eq_nil hnil, hts, List.append_nil]
  have hhead : Task.refreshes (t :: ts) = t.delivery?.toList.filter Delivery.isRefresh := by
    rw [Task.refreshes_cons, hts, List.append_nil]
  rw [hrest, List.append_assoc]
  constructor
  · rw [Event.refreshes_append, Task.refreshes_append, hrests, hmap, hhead, Event.refreshes,
      Event.refreshes, h.events, List.append_nil]
  · cases hdue : w.due demand with
    | nil => exact Task.refreshes_tail hrests
    | cons d ds =>
      have htail : (w.due demand).tail.filter Delivery.isRefresh = [] := by
        rw [Wall.due]
        cases demand with
        | none => rfl
        | some d =>
          cases w.controller with
          | none => rfl
          | some c => exact (d.refreshes_meet c).2
      rw [hdue] at htail
      rw [List.map_cons, List.cons_append, List.tail_cons, Task.refreshes_append, hrests, hmap,
        List.append_nil]
      exact htail

/-- How the notes about connections fit a wall, as long as every change was reported at once. -/
structure Gate.Tracks (w : Wall) (g : Gate) : Prop where
  settled : g.unreported = none → g.aggregate = w.isConnected
  gained : g.unreported = some true → w.isConnected = true
  lost : g.unreported = some false → g.aggregate = true

namespace Gate.Tracks

variable {w : Wall} {op : Op} {g : Gate}

theorem congr {v : Wall} (h : g.Tracks w) (hv : v.isConnected = w.isConnected) : g.Tracks v where
  settled := hv ▸ h.settled
  gained := hv ▸ h.gained
  lost := h.lost

/-- What is not a report comes when nothing is unreported. -/
theorem unreported_eq (hp : w.isPrompt g.unreported op = true) (hr : w.reports op = false) :
    g.unreported = none := by
  cases op with
  | hotplugUpdate b =>
    rw [Wall.isPrompt, hr, Bool.and_false, Bool.false_or, Bool.and_eq_true] at hp
    exact Option.isNone_iff_eq_none.1 hp.1
  | _ => exact Option.isNone_iff_eq_none.1 hp

/-- Who reports a connected output at the right time is right, and who reports another one has not
    made the wall connected. -/
theorem right_of_reports (h : g.Tracks w) (hp : w.isPrompt g.unreported op = true)
    (hr : w.reports op = true) {b : Bool} (hop : op = .hotplugUpdate b ∨ ∃ i, op = .plug i b) :
    (b = true → (w.pluggedBy op).any id = true) ∧
      (b = false → (w.pluggedBy op).any id = true → g.aggregate = true) := by
  rcases hop with rfl | ⟨i, rfl⟩
  · have hany : (w.pluggedBy (.hotplugUpdate b)).any id = w.isConnected := w.isConnected_eq.symm
    rw [hany]
    simp only [Wall.isPrompt, Bool.or_eq_true, Bool.and_eq_true, beq_iff_eq,
      Bool.not_eq_true'] at hp
    rcases hp with ⟨hu, -⟩ | ⟨hu, hb⟩
    · exact ⟨fun hb => h.gained (hb ▸ hu), fun hb _ => h.lost (hb ▸ hu)⟩
    · refine ⟨fun hbt => hb.resolve_left fun hbf => ?_, fun _ hc => ?_⟩
      · cases hbt.symm.trans hbf
      · rw [h.settled (Option.isNone_iff_eq_none.1 hu), hc]
  · have hsettled := h.settled (Option.isNone_iff_eq_none.1 hp)
    have hset : w.pluggedBy (.plug i b) = w.plugged.set i b := rfl
    rw [hset, hsettled, w.isConnected_eq]
    constructor
    · rintro rfl
      have hi : i < w.plugged.length := by
        rw [Wall.reports, Bool.and_eq_true] at hr
        obtain ⟨o, ho, -⟩ := (Option.any_eq_true ..).1 hr.2
        have hi := (List.getElem?_eq_some_iff.1 ho).1
        simpa [Wall.outputs, Wall.plugged] using hi
      exact List.any_eq_true.2 ⟨true, List.mem_set hi true, rfl⟩
    · rintro rfl hc
      obtain ⟨x, hx, hxt⟩ := List.any_eq_true.1 hc
      refine List.any_eq_true.2 ⟨x, ?_, hxt⟩
      rcases List.mem_or_eq_of_mem_set hx with hx | rfl
      · exact hx
      · cases hxt

/-- So the controller sees the connections as they are by then. -/
theorem heed_eq (h : g.Tracks w) (hp : w.isPrompt g.unreported op = true)
    (hr : w.reports op = true) :
    ∃ b, w.demand? (.perform op) = some (.hotplug ((w.pluggedBy op).count true) b) ∧
      heed g.aggregate ((w.pluggedBy op).count true) b = (w.pluggedBy op).any id := by
  obtain ⟨b, hd, hop⟩ := Wall.exists_hotplug_of_reports hr
  obtain ⟨hgained, hkept⟩ := h.right_of_reports hp hr hop
  exact ⟨b, hd, heed_eq_any hgained hkept⟩

/-- The notes fit once an operation at the right time has begun. -/
theorem begin (h : g.Tracks w) (hp : w.isPrompt g.unreported op = true) (mark : Nat) :
    (w.gating (.perform op) g).Tracks (w.begin mark op).wall := by
  have hconnected : (w.begin mark op).wall.isConnected = (w.pluggedBy op).any id := by
    rw [Wall.isConnected_eq, w.plugged_begin]
  cases hr : w.reports op with
  | true =>
    refine ⟨fun _ => ?_, fun hu => ?_, fun hu => ?_⟩
    · rw [hconnected, Wall.gating, if_pos hr]
    · simp [Wall.gating, hr] at hu
    · simp [Wall.gating, hr] at hu
  | false =>
    have hsettled := h.settled (unreported_eq hp hr)
    have hg : (w.gating (.perform op) g).aggregate = w.isConnected ∧
        (w.gating (.perform op) g).unreported = w.switches? op := by
      rw [Wall.gating, hr]
      exact ⟨hsettled, rfl⟩
    refine ⟨fun hu => ?_, fun hu => ?_, fun hu => ?_⟩
    · rw [hg.1, hconnected, Wall.pluggedBy_of_not_switches (hg.2 ▸ hu), w.isConnected_eq]
    · rw [hconnected]
      exact Wall.any_pluggedBy_of_switches (hg.2 ▸ hu)
    · rw [hg.1]
      exact Wall.isConnected_of_switches (hg.2 ▸ hu)

/-- The controller takes the connections for what is noted, if somebody listens when they turn. -/
theorem connected_begin (h : g.Tracks w) (hp : w.isPrompt g.unreported op = true) {c : Controller}
    (hc : w.controller = some c) (hflag : c.connected = g.aggregate)
    (hh : (w.gating (.perform op) g).heard = true) :
    ((w.demand? (.perform op)).elim c fun d => (d.meet c).1).connected =
      (w.gating (.perform op) g).aggregate := by
  cases hr : w.reports op with
  | true =>
    obtain ⟨b, hdem, hheed⟩ := h.heed_eq hp hr
    have haggregate : (w.gating (.perform op) g).aggregate = (w.pluggedBy op).any id := by
      rw [Wall.gating, if_pos hr]
    rw [hdem, haggregate, ← hheed]
    refine (c.connected_hotplug _ b).trans ?_
    rw [hflag]
    split
    · rfl
    · next hl =>
      -- nobody listened, so nothing has turned
      rw [Wall.gating, hr, hc] at hh
      simp only [Bool.not_true, Bool.false_or, Bool.and_eq_true, Bool.or_eq_true, beq_iff_eq,
        Option.any_some] at hh
      rw [hheed]
      exact (hh.2.resolve_right hl).symm
  | false =>
    have haggregate : (w.gating (.perform op) g).aggregate = g.aggregate := by
      rw [Wall.gating, hr]
      rfl
    rw [haggregate, ← hflag]
    cases hdem : w.demand? (.perform op) with
    | none => rfl
    | some demand => exact Demand.connected_meet (Wall.ne_hotplug_of_not_reports hc hr hdem)

end Gate.Tracks

/-- How the notes fit a wall, what is left to do and what was told, as long as every change was
    reported at once and every turn was heard. Only the first thing that is left to do can tell a
    refresh. -/
structure Gate.Sound (w : Wall) (ts : List Task) (es : List Event) (g : Gate) : Prop where
  tracks : g.prompt = true → g.Tracks w
  flag_eq : g.prompt = true → g.heard = true → ∀ c, w.controller = some c →
    c.connected = g.aggregate
  told_eq : g.prompt = true → g.heard = true →
    Event.refreshes es ++ Task.refreshes ts = g.due
  tail_eq : Task.refreshes ts.tail = []

namespace Gate.Sound

variable {w : Wall} {op : Op} {t : Task} {ts : List Task} {es : List Event} {g : Gate}

/-- What is left to do may change as long as the refreshes stay. -/
theorem of_tasks (h : g.Sound w ts es) {us : List Task} {fs : List Event}
    (hrefreshes : Event.refreshes fs ++ Task.refreshes us = Event.refreshes es ++ Task.refreshes ts)
    (htail : Task.refreshes us.tail = []) : g.Sound w us fs where
  tracks := h.tracks
  flag_eq := h.flag_eq
  told_eq := fun hp hh => hrefreshes.trans (h.told_eq hp hh)
  tail_eq := htail

/-- An operation begins. -/
theorem perform (h : g.Sound w (.perform op :: ts) es) (mark : Nat)
    (hd : (w.exec mark (.perform op)).Decides w none (w.demand? (.perform op))) :
    (w.gating (.perform op) g).Sound (w.exec mark (.perform op)).wall
      ((w.exec mark (.perform op)).tasks ++ ts) (es ++ (w.exec mark (.perform op)).events) := by
  have hts : Task.refreshes ts = [] := h.tail_eq
  have hrefreshes := hd.refreshes (t := .perform op) hts es
  have hprompt : (w.gating (.perform op) g).prompt = true →
      g.prompt = true ∧ w.isPrompt g.unreported op = true := (Bool.and_eq_true ..).mp
  have hheard : (w.gating (.perform op) g).heard = true → g.heard = true := by
    intro hh
    exact ((Bool.and_eq_true ..).mp hh).1
  refine ⟨fun hp => ?_, fun hp hh c' hc' => ?_, fun hp hh => ?_, hrefreshes.2⟩
  · obtain ⟨hp, hop⟩ := hprompt hp
    exact (h.tracks hp).begin hop mark
  · obtain ⟨hp, hop⟩ := hprompt hp
    obtain ⟨c, hc, rfl⟩ := hd.controller c' hc'
    exact (h.tracks hp).connected_begin hop hc (h.flag_eq hp (hheard hh) c hc) hh
  · obtain ⟨hp, hop⟩ := hprompt hp
    have hdue : (w.due (w.demand? (.perform op))).filter Delivery.isRefresh = w.refreshDue op := by
      refine Wall.filter_due op fun c hc hask => ?_
      have hr : w.reports op = false := by
        cases op <;> first | rfl | cases hask
      rw [h.flag_eq hp (hheard hh) c hc, (h.tracks hp).settled (Tracks.unreported_eq hop hr)]
    rw [hrefreshes.1, hdue, h.told_eq hp (hheard hh)]
    rfl

/-- Anything else is done. -/
theorem exec (h : g.Sound w (t :: ts) es) (ht : ∀ op, t ≠ .perform op) (mark : Nat)
    (hd : (w.exec mark t).Decides w t.delivery? (w.demand? t)) :
    g.Sound (w.exec mark t).wall ((w.exec mark t).tasks ++ ts) (es ++ (w.exec mark t).events) := by
  have hts : Task.refreshes ts = [] := h.tail_eq
  have hrefreshes := hd.refreshes hts es
  have hconnected : (w.exec mark t).wall.isConnected = w.isConnected := by
    rw [Wall.isConnected_eq, Wall.isConnected_eq, w.plugged_exec mark ht]
  have hdem := w.demand?_of_not_perform ht
  have hdue : (w.due (w.demand? t)).filter Delivery.isRefresh = [] := by
    rcases hdem with hdem | ⟨time, hdem⟩
    · rw [hdem]
      rfl
    · rw [hdem, Wall.due]
      cases w.controller with
      | none => rfl
      | some c => exact (Demand.refreshes_meet (.vblank time) c).1
  refine ⟨fun hp => (h.tracks hp).congr hconnected, fun hp hh c' hc' => ?_, fun hp hh => ?_,
    hrefreshes.2⟩
  · obtain ⟨c, hc, rfl⟩ := hd.controller c' hc'
    rw [← h.flag_eq hp hh c hc]
    rcases hdem with hdem | ⟨time, hdem⟩
    · rw [hdem]
      rfl
    · rw [hdem]
      refine Demand.connected_meet fun outputs b hvblank => ?_
      cases hvblank
  · rw [hrefreshes.1, hdue, List.append_nil, h.told_eq hp hh]

end Gate.Sound

namespace Wall

variable {outputs : List Output} {policy : Policy} {n : Noted Gate}

/-- The notes fit whatever a new wall comes to. -/
theorem Brings.gate_sound (h : (Wall.create outputs policy).Brings gating (.start outputs) n) :
    n.notes.Sound n.run.wall n.run.tasks n.run.events := by
  refine (h.deciding (P := fun w ts es g => g.Sound w ts es) ?_ ?_ ?_ ?_ ?_ ?_).1
  · have hconnected : outputs.any (·.connected) = (create outputs policy).isConnected := by
      simp [isConnected, Wall.outputs, create, Function.comp_def]
    refine ⟨fun _ => ⟨fun _ => hconnected, fun hu => ?_, fun hu => ?_⟩, ?_, fun _ _ => rfl, rfl⟩
    · cases hu
    · cases hu
    rintro - - c ⟨⟩
    rw [Gate.start, Bool.eq_iff_iff, Controller.create, decide_eq_true_iff, List.countP_pos_iff,
      List.any_eq_true]
  · exact fun w op es g hg => hg.of_tasks rfl rfl
  · intro w ts op r es g hg
    have hts : Task.refreshes (ts ++ [.report op r]) = Task.refreshes ts := by
      rw [Task.refreshes, Task.deliveries_concat_report, Task.refreshes]
    refine hg.of_tasks (by rw [hts]) ?_
    cases ts with
    | nil => rfl
    | cons t ts =>
      have htail := hg.tail_eq
      rw [List.cons_append, List.tail_cons, Task.refreshes_append] at htail
      exact (List.append_eq_nil_iff.1 htail).1
  · intro w tiles es g hg
    have hpolls : Task.refreshes (tiles.map .poll) = [] :=
      Task.refreshes_eq_nil (Task.deliveries_map_poll tiles)
    exact hg.of_tasks (by rw [hpolls]; rfl) (Task.refreshes_tail hpolls)
  · intro w mark ts es g hg
    refine hg.of_tasks ?_ (Task.refreshes_tail hg.tail_eq)
    have hgrouped : Event.refreshes (es.take mark ++ Event.grouped (es.drop mark)) =
        Event.refreshes es := by
      rw [Event.refreshes, Event.deliveries_take_grouped, Event.refreshes]
    rw [hgrouped, Task.refreshes_cons]
    rfl
  · intro w t ts es g _ hd hg
    by_cases ht : ∃ op, t = .perform op
    · obtain ⟨op, rfl⟩ := ht
      exact hg.perform _ hd
    · have hne : ∀ op, t ≠ .perform op := fun op hop => ht ⟨op, hop⟩
      have hnote : w.gating t g = g := by
        cases t <;> first | rfl | exact absurd rfl (hne _)
      rw [hnote]
      exact hg.exec hne _ hd

/-- As long as every connection change is reported before anything else happens, nobody reports a
    connected output while there is none, and somebody listens for hotplugs whenever a report turns
    the connection state of the outputs, exactly the refreshes that are due are told: one for each
    request that comes while the wall is fully powered, some output is connected and somebody
    listens. The last of them may be about to be told; at rest there is none. And what the
    controller takes the connection state to be is what it is. -/
theorem Brings.refreshes_due (h : (Wall.create outputs policy).Brings gating (.start outputs) n)
    (hp : n.notes.prompt = true) (hh : n.notes.heard = true) :
    Event.refreshes n.run.events ++ Task.refreshes n.run.tasks = n.notes.due ∧
      Task.refreshes n.run.tasks.tail = [] ∧
      (n.run.isAtRest = true → Event.refreshes n.run.events = n.notes.due) ∧
      (n.notes.unreported = none → ∀ c, n.run.wall.controller = some c →
        c.connected = n.run.wall.isConnected) := by
  have hs := h.gate_sound
  have htold := hs.told_eq hp hh
  refine ⟨htold, hs.tail_eq, fun hr => ?_, fun hu c hc => ?_⟩
  · rw [Run.isAtRest, Bool.and_eq_true, List.isEmpty_iff] at hr
    rw [hr.1] at htold
    exact (List.append_nil _).symm.trans htold
  · rw [hs.flag_eq hp hh c hc, (hs.tracks hp).settled hu]

/-- Both outputs are unplugged and one is plugged in again. Nobody listens for hotplugs as long as
    the other output keeps the wall connected. -/
def replugged : Noted Gate :=
  [.listen .refresh ⟨7⟩ "refresh" [] 0, .setPowerMode .on,
    .change 0 { connected := some false } none, .hotplugUpdate false, .refreshUpdate,
    .listen .hotplug ⟨7⟩ "hotplug" [] 0,
    .change 1 { connected := some false } none, .hotplugUpdate false, .refreshUpdate,
    .change 0 { connected := some true } none, .hotplugUpdate true, .refreshUpdate,
    .setPowerMode .doze, .refreshUpdate].foldl (Noted.perform gating)
      ⟨(create [{}, {}] {}).resting, .start [{}, {}]⟩

theorem refreshes_due_replugged :
    (create [{}, {}] {}).Brings gating (.start [{}, {}]) replugged ∧
      replugged.notes.prompt = true ∧ replugged.notes.heard = true ∧
      replugged.notes.due = [⟨0, ⟨7⟩, .refresh⟩, ⟨0, ⟨7⟩, .refresh⟩] ∧
      Event.refreshes replugged.run.events = [⟨0, ⟨7⟩, .refresh⟩, ⟨0, ⟨7⟩, .refresh⟩] := by
  have hbrings : (create [{}, {}] {}).Brings gating (.start [{}, {}]) replugged := by
    refine (((((((((((((Brings.start.perform rfl _).perform ?_ _).perform ?_ _).perform ?_
      _).perform ?_ _).perform ?_ _).perform ?_ _).perform ?_ _).perform ?_ _).perform ?_
      _).perform ?_ _).perform ?_ _).perform ?_ _).perform ?_ _
    all_goals decide +kernel
  have hprompt : replugged.notes.prompt = true := by decide +kernel
  have hheard : replugged.notes.heard = true := by decide +kernel
  have hdue : replugged.notes.due = [⟨0, ⟨7⟩, .refresh⟩, ⟨0, ⟨7⟩, .refresh⟩] := by decide +kernel
  obtain ⟨-, -, htold, -⟩ := hbrings.refreshes_due hprompt hheard
  exact ⟨hbrings, hprompt, hheard, hdue, (htold (by decide +kernel)).trans hdue⟩

/-- An output is plugged in and that is reported at once, but nobody listens for hotplugs. -/
def unheard : Noted Gate :=
  [.listen .refresh ⟨7⟩ "refresh" [] 0, .setPowerMode .on,
    .change 0 { connected := some true } none, .hotplugUpdate true, .refreshUpdate].foldl
      (Noted.perform gating)
      ⟨(create [{ connected := false }] {}).resting, .start [{ connected := false }]⟩

/-- The wall is fully powered and connected, and somebody listens for refreshes; the request is not
    passed on. -/
theorem refresh_withheld :
    unheard.notes.prompt = true ∧ unheard.run.wall.isConnected = true ∧
      unheard.run.wall.controller.any (·.power.isOn) = true ∧
      unheard.notes.due = [⟨0, ⟨7⟩, .refresh⟩] ∧ Event.refreshes unheard.run.events = [] := by
  decide +kernel

end Wall

end VideoWall
