import VideoWall.Wall.Run

/-! Operations that are not about connections, and what a host is told about connections.

    An operation is ordinary when neither it nor any script that it leaves behind plugs an output,
    reports a hotplug or gives the controller up. What was told is read off the events, in their
    order; grouping the events of a frame by output does not disturb it. -/

namespace VideoWall

/-! ### Ordinary operations -/

mutual

/-- Neither the operation nor a script in it is about connections. -/
def Op.isOrdinary : Op → Bool
  | .hotplugUpdate _ => false
  | .plug .. => false
  | .drop => false
  | .listen _ _ _ script _ => Op.areOrdinary script
  | .change _ c onPresent => c.connected.isNone && Op.areOrdinaryOf onPresent
  | _ => true

/-- Every operation of a script is ordinary. -/
def Op.areOrdinary : List Op → Bool
  | [] => true
  | op :: rest => Op.isOrdinary op && Op.areOrdinary rest

/-- Every operation of a script that may be missing is ordinary. -/
def Op.areOrdinaryOf : Option (List Op) → Bool
  | none => true
  | some script => Op.areOrdinary script

end

theorem Op.isOrdinary_of_mem {script : List Op} (h : areOrdinary script = true) {op : Op}
    (hop : op ∈ script) : op.isOrdinary = true := by
  induction script with
  | nil => cases hop
  | cons o rest ih =>
    rw [areOrdinary, Bool.and_eq_true] at h
    rcases List.mem_cons.1 hop with rfl | hop
    · exact h.1
    · exact ih h.2 hop

/-! ### What hotplugs are told -/

/-- The connection state that a notice tells. -/
def Notice.hotplug? : Notice → Option Bool
  | .hotplug connected => some connected
  | _ => none

/-- The connection state that an event tells. -/
def Event.hotplug? : Event → Option Bool
  | .told _ _ _ notice => notice.hotplug?
  | _ => none

/-- The connection state that a task is about to tell. -/
def Task.hotplug? : Task → Option Bool
  | .deliver d => d.notice.hotplug?
  | _ => none

/-- The connection states that were told, in order. -/
def Event.hotplugs (es : List Event) : List Bool := es.filterMap Event.hotplug?

/-- The connection states that are about to be told, in order. -/
def Task.hotplugs (ts : List Task) : List Bool := ts.filterMap Task.hotplug?

@[simp] theorem Event.hotplugs_nil : hotplugs [] = [] := rfl

@[simp] theorem Task.hotplugs_nil : hotplugs [] = [] := rfl

theorem Event.hotplugs_append (es fs : List Event) :
    hotplugs (es ++ fs) = hotplugs es ++ hotplugs fs := List.filterMap_append

theorem Task.hotplugs_append (ts us : List Task) :
    hotplugs (ts ++ us) = hotplugs ts ++ hotplugs us := List.filterMap_append

theorem Event.hotplugs_eq_nil {es : List Event} (h : ∀ e ∈ es, e.hotplug? = none) :
    hotplugs es = [] := List.filterMap_eq_nil_iff.2 h

theorem Task.hotplugs_eq_nil {ts : List Task} (h : ∀ t ∈ ts, t.hotplug? = none) :
    hotplugs ts = [] := List.filterMap_eq_nil_iff.2 h

/-- The order in which events are grouped. -/
def Event.before (a b : Event) : Bool :=
  match a.output?, b.output? with
  | none, _ => true
  | some _, none => false
  | some i, some j => decide (i ≤ j)

theorem Event.grouped_eq (es : List Event) : grouped es = es.mergeSort before := rfl

theorem Event.before_of_output?_eq_none {a : Event} (h : a.output? = none) (b : Event) :
    a.before b = true := by
  rw [before, h]

theorem Event.before_trans (a b c : Event) (hab : a.before b = true) (hbc : b.before c = true) :
    a.before c = true := by
  revert hab hbc
  rw [before, before, before]
  cases a.output? <;> cases b.output? <;> cases c.output? <;> simp
  omega

theorem Event.before_total (a b : Event) : (a.before b || b.before a) = true := by
  rw [before, before]
  cases a.output? <;> cases b.output? <;> simp
  omega

/-- Sorting is stable, so grouping by output does not reorder events that are in order already. -/
theorem Event.filter_grouped {p : Event → Bool} {es : List Event}
    (hpair : (es.filter p).Pairwise fun a b => a.before b = true) :
    (grouped es).filter p = es.filter p := by
  rw [grouped_eq]
  -- the events in question come out as the sublist that they are
  have hsub : (es.filter p).Sublist ((es.mergeSort before).filter p) := by
    have h := (List.sublist_mergeSort before_trans before_total hpair List.filter_sublist).filter p
    have hp2 : (fun e => p e && p e) = p := funext fun e => Bool.and_self _
    rwa [List.filter_filter, hp2] at h
  have hlen : (es.filter p).length = ((es.mergeSort before).filter p).length :=
    ((List.mergeSort_perm es before).filter p).length_eq.symm
  exact (hsub.eq_of_length hlen).symm

/-- What is read off events that are in order already does not depend on grouping. -/
theorem Event.filterMap_grouped {α : Type} {f : Event → Option α} {es : List Event}
    (hpair : es.Pairwise fun a b => (f a).isSome → (f b).isSome → a.before b = true) :
    (grouped es).filterMap f = es.filterMap f := by
  have h : ∀ fs : List Event, fs.filterMap f = (fs.filter fun e => (f e).isSome).filterMap f := by
    intro fs
    rw [List.filterMap_filter]
    refine congrArg fs.filterMap (funext fun e => ?_)
    cases f e <;> simp
  rw [h, h es, filter_grouped (List.pairwise_filter.2 hpair)]

/-- Grouping by output does not reorder anything but calls. -/
theorem Event.filterMap_grouped_of_call {α : Type} {f : Event → Option α}
    (h : ∀ i c, f (.call i c) = none) (es : List Event) :
    (grouped es).filterMap f = es.filterMap f := by
  refine filterMap_grouped (List.pairwise_of_forall fun a b ha _ => ?_)
  refine before_of_output?_eq_none ?_ b
  cases a with
  | call i c =>
    rw [h] at ha
    cases ha
  | told => rfl
  | performed => rfl

theorem Event.hotplugs_grouped (es : List Event) : hotplugs (grouped es) = hotplugs es :=
  filterMap_grouped_of_call (fun _ _ => rfl) es

end VideoWall
