import VideoWall.Proofs.Canvas
import VideoWall.Proofs.Composite
import VideoWall.Proofs.Offers
import VideoWall.Proofs.Recomputation

/-! How wide a frame is.

    Windows are placed one after another, and every edge is stopped at the last measure there is;
    the width of the mode is added up on its own, stops at the last count, and is cut to a measure
    when it is reported. Either way it is the exact sum of the widths, stopped once. `cuts_layout`
    says so of the windows, where each of them begins and ends, and `Wall.Brings.width_eq` of the
    mode. So a frame that every output takes part in ends just where the mode says that the wall
    ends, and one that only some take part in ends no further: `Wall.Brings.canvas_agrees`. -/

namespace VideoWall

/-! ### Where windows begin and end -/

/-- The edge behind some tiles: at their widths together, unless no edge can be that far. -/
def edgeAfter (tiles : List Footprint) : Int :=
  min ((tiles.map (·.width)).sum : Nat) Limits.maxMeasure

/-- The window of the tile that comes after `k` of the tiles. -/
structure Window.Cuts (tiles : List Footprint) (k : Nat) (t : Footprint) (w : Window) : Prop where
  sourceLeft : w.sourceLeft = edgeAfter (tiles.take k)
  sourceRight : w.sourceRight = edgeAfter (tiles.take (k + 1))
  deviceLeft : w.deviceLeft = min (t.logicalIndex * t.width) Limits.maxCount
  deviceRight : w.deviceRight = min ((t.logicalIndex + 1) * t.width) Limits.maxCount
  remaining : w.constraints.remaining = tiles.length - k

theorem edgeAfter_nil : edgeAfter [] = 0 := by decide

/-- The next edge is as far on as the next tile is wide, and stops at the same place. -/
theorem edgeAfter_concat (tiles : List Footprint) (t : Footprint) :
    edgeAfter (tiles ++ [t]) = Limits.measure (edgeAfter tiles + t.width) := by
  simp only [edgeAfter, Limits.measure, Limits.minMeasure, Limits.maxMeasure, List.map_append,
    List.sum_append, List.map_singleton, List.sum_singleton]
  omega

namespace Window

/-- Tiles that come after others get the windows that begin at the edge behind those. -/
theorem getElem?_layoutFrom (total : Nat) (before tiles : List Footprint) (k : Nat) :
    (layoutFrom total (edgeAfter before) before.length tiles)[k]? = tiles[k]?.map fun t =>
      place (edgeAfter (before ++ tiles.take k)) t.width t.logicalIndex (before.length + k)
        total := by
  induction tiles generalizing before k with
  | nil => simp [layoutFrom]
  | cons t rest ih =>
    cases k with
    | zero => simp [layoutFrom]
    | succ k =>
      have hedge :
          (place (edgeAfter before) t.width t.logicalIndex before.length total).sourceRight =
            edgeAfter (before ++ [t]) := (edgeAfter_concat before t).symm
      have hlen : before.length + 1 = (before ++ [t]).length := by simp
      rw [layoutFrom, List.getElem?_cons_succ, List.getElem?_cons_succ, hedge, hlen, ih]
      simp [Nat.add_assoc, Nat.add_comm 1 k]

/-- Window `k`, in terms of the tiles before it. -/
theorem getElem?_layout (tiles : List Footprint) (k : Nat) :
    (layout tiles)[k]? = tiles[k]?.map fun t =>
      place (edgeAfter (tiles.take k)) t.width t.logicalIndex k (Limits.count tiles.length) := by
  simpa [edgeAfter_nil, layout] using getElem?_layoutFrom (Limits.count tiles.length) [] tiles k

variable {tiles : List Footprint}

/-- As long as the tiles can be counted, every one of them has its window. -/
theorem cuts_layout (hn : tiles.length ≤ Limits.maxCount) {k : Nat} {w : Window}
    (hw : (layout tiles)[k]? = some w) : ∃ t, tiles[k]? = some t ∧ w.Cuts tiles k t := by
  rw [getElem?_layout] at hw
  obtain ⟨t, ht, rfl⟩ := Option.map_eq_some_iff.1 hw
  refine ⟨t, ht, rfl, ?_, rfl, ?_, ?_⟩
  · rw [List.take_add_one, ht]
    exact (edgeAfter_concat (tiles.take k) t).symm
  · simp only [place, Limits.count, Nat.add_mul, Nat.one_mul]
    omega
  · rw [constraints, place, Limits.count_of_le hn]

/-- Where the last window ends. -/
theorem rightEnd_layout (tiles : List Footprint) : rightEnd (layout tiles) = edgeAfter tiles := by
  rcases List.eq_nil_or_concat tiles with rfl | ⟨rest, t, rfl⟩
  · rfl
  · rw [List.concat_eq_append, rightEnd, List.getLast?_eq_getElem?, length_layout, getElem?_layout,
      edgeAfter_concat]
    simp [place]

end Window

/-! ### The width of the mode -/

/-- A width stops once, however it is counted and measured. -/
theorem Limits.measure_count (n : Nat) : measure (count n : Nat) = min (n : Int) maxMeasure := by
  simp only [measure, count, minMeasure, maxMeasure, maxCount]
  omega

/-- The width of a derived mode is that of all its screens side by side. -/
def Derived.Spans (s : Derived) : Prop :=
  s.mode.width = Limits.count (s.screens.map (·.width)).sum

namespace Derived

variable {s : Derived}

theorem spans_start (outputs : List Output) : (start outputs).Spans := by
  rw [Spans, start]
  simp [CompositeMode.ofOutputs, CompositeMode.totalWidth_eq, Function.comp_def, Output.screen,
    Output.mode, Output.width]

/-- The screens switch together, and nothing else changes their widths or that of the mode. -/
theorem Spans.revise (h : s.Spans) (r : Revision) : (s.revise r).Spans := by
  cases r with
  | configure config =>
    rw [Spans, Derived.revise]
    simp [CompositeMode.ofOutputs, CompositeMode.totalWidth_eq, Function.comp_def, Output.mode]
  | report => exact h
  | frame plugged =>
    rw [Derived.revise]
    split
    · exact h
    · split <;> exact h

theorem spans_of (outputs : List Output) (revisions : List Revision) :
    (Derived.of outputs revisions).Spans := by
  rw [Derived.of]
  induction revisions using List.reverseRecOn with
  | nil => exact spans_start outputs
  | append_singleton revisions r ih =>
    rw [List.foldl_append]
    exact ih.revise r

end Derived

namespace Output

theorem width_screen (o : Output) : o.screen.width = o.width := rfl

theorem lasting_width : Lasting (·.width) where
  present o := by rw [← width_screen, lasting_screen.present, width_screen]
  release o f := by rw [← width_screen, lasting_screen.release, width_screen]
  mapLoop _ _ := rfl

end Output

namespace Wall

variable {w : Wall} {c : Controller}

/-- How wide the outputs are, from left to right. -/
def widths (w : Wall) : List Nat := w.view (·.width)

theorem widths_reconcile (w : Wall) (c : Controller) : (w.reconcile c).widths = w.widths :=
  w.view_reconcile Output.lasting_width c

/-- As long as there is a controller, its mode is as wide as the outputs are side by side. -/
theorem Brings.width_eq {outputs : List Output} {policy : Policy} {n : Noted (List Revision)}
    (h : (create outputs policy).Brings revising [] n) (hc : n.run.wall.controller = some c) :
    c.mode.width = Limits.count n.run.wall.widths.sum := by
  have hfits := h.derived
  have hwidths : n.run.wall.widths = n.run.wall.screens.map (·.width) := by
    simp [widths, screens, view, Output.screen, Output.width]
  rw [(hfits.controller c hc).mode_eq, hwidths, hfits.screens_eq]
  exact Derived.spans_of outputs n.notes

/-! ### Frames -/

/-- The windows of a frame: they are laid out for the tiles that have a worker. -/
def windows (w : Wall) : List Window := Window.layout (w.staffed.map (·.2))

/-- The tiles with a worker are as wide as their outputs. -/
theorem map_width_staffed (w : Wall) :
    (w.staffed.map (·.2)).map (·.width) =
      (w.tiles.filter (·.worker.isSome)).map (·.output.width) := by
  have hfst : w.tiles = w.tiles.zipIdx.map (·.1) := (List.zipIdx_map_fst ..).symm
  conv_rhs => rw [hfst]
  rw [staffed, ← List.filterMap_eq_filter, List.filterMap_map, List.map_map, List.map_filterMap,
    List.map_filterMap]
  refine List.filterMap_congr fun x _ => ?_
  cases hw : x.1.worker <;> simp [hw, Option.guard]

/-- The windows of a frame end no further than all outputs together, and just there if all of them
    have a worker. -/
theorem rightEnd_windows (w : Wall) :
    Window.rightEnd w.windows ≤ min (w.widths.sum : Int) Limits.maxMeasure ∧
      ((∀ b ∈ w.staffing, b = true) →
        Window.rightEnd w.windows = min (w.widths.sum : Int) Limits.maxMeasure) := by
  rw [windows, Window.rightEnd_layout, edgeAfter, map_width_staffed]
  constructor
  · have hsum : ((w.tiles.filter (·.worker.isSome)).map (·.output.width)).sum ≤ w.widths.sum :=
      (List.filter_sublist.map _).sum_le_sum fun _ _ => Nat.zero_le _
    omega
  · intro hall
    have hfilter : w.tiles.filter (·.worker.isSome) = w.tiles := by
      rw [staffing_eq_map, List.forall_mem_map] at hall
      exact List.filter_eq_self.2 hall
    rw [hfilter]
    rfl

end Wall

/-- The window that a task hands to a worker. -/
def Task.window? : Task → Option Window
  | .dispatch _ job => some job.window
  | _ => none

namespace Wall

variable {w : Wall} {c : Controller}

/-- Either pipeline hands the windows out from left to right. -/
theorem windows_schedule (p : Pipeline) (jobs : List (Nat × Job)) :
    (schedule p jobs).filterMap Task.window? = jobs.map (·.2.window) := by
  cases p with
  | sequential =>
    induction jobs with
    | nil => rfl
    | cons job jobs ih =>
      rw [schedule] at ih ⊢
      rw [List.flatMap_cons, List.filterMap_append, ih]
      rfl
  | barrier =>
    simp [schedule, List.filterMap_append, List.filterMap_map, Function.comp_def, Task.window?]

theorem map_window_jobs (w : Wall) (layers : List Layer) (upload : Bool) :
    (w.jobs layers upload).map (·.2.window) =
      w.windows.take (w.policy.tilesPerFrame w.staffed.length) := by
  have hzip : (w.staffed.zip w.windows).map (·.2) = w.windows :=
    List.map_snd_zip (by rw [windows, Window.length_layout, List.length_map])
  conv_rhs => rw [← hzip, ← List.map_take]
  rw [jobs, List.map_map]
  rfl

/-- A frame hands out its windows, to as many tiles as the policy says. -/
theorem windows_begin_present (hh : w.held = true) (hc : w.controller = some c)
    (hp : c.power.isOn = true) (mark : Nat) (layers : List Layer) (upload : Bool) :
    (w.begin mark (.present layers upload)).tasks.filterMap Task.window? =
      (w.reconcile c).windows.take
        ((w.reconcile c).policy.tilesPerFrame (w.reconcile c).staffed.length) := by
  rw [begin_present hh hc hp, List.filterMap_append, List.filterMap_append, windows_schedule,
    map_window_jobs]
  cases w.policy.pipeline <;> simp [Task.window?]

/-- Any tiles that can be counted get windows that follow one another from the left end of the
    canvas: each spans what its tile adds to the exact widths before it, stopped once, and shows the
    part of the output's own space that its index says. And in whatever state a wall is when a frame
    begins, the windows of the frame end where the mode says that the wall ends, if every output has
    a worker; if only some have, no further. -/
theorem Brings.canvas_agrees {outputs : List Output} {policy : Policy}
    {n : Noted (List Revision)} (h : (create outputs policy).Brings revising [] n)
    (hc : n.run.wall.controller = some c) :
    (∀ tiles : List Footprint, tiles.length < Limits.maxCount →
      (Window.layout tiles).length = tiles.length ∧
      (∀ (k : Nat) (w : Window), (Window.layout tiles)[k]? = some w →
        ∃ t, tiles[k]? = some t ∧ w.Cuts tiles k t ∧ 1 ≤ w.constraints.remaining) ∧
      (∀ w, (Window.layout tiles)[0]? = some w → w.sourceLeft = 0) ∧
      ∀ (k : Nat) (w v : Window), (Window.layout tiles)[k]? = some w →
        (Window.layout tiles)[k + 1]? = some v → w.sourceRight = v.sourceLeft) ∧
    let w := n.run.wall
    let v := w.reconcile c
    (w.held = true → c.power.isOn = true → ∀ mark layers upload,
      (w.begin mark (.present layers upload)).tasks.filterMap Task.window? =
        v.windows.take (v.policy.tilesPerFrame v.staffed.length)) ∧
    ∃ width, (∀ config, w.answer c (.report config .width) = .report (.ok width)) ∧
      Window.rightEnd v.windows ≤ width ∧
      ((∀ b ∈ v.staffing, b = true) → Window.rightEnd v.windows = width) := by
  refine ⟨fun tiles hn => ⟨Window.length_layout tiles, fun k w hw => ?_, fun w hw => ?_,
    fun k w v hw hv => ?_⟩, fun hh hp mark layers upload =>
      windows_begin_present hh hc hp mark layers upload, ?_⟩
  · obtain ⟨t, ht, hcuts⟩ := Window.cuts_layout hn.le hw
    refine ⟨t, ht, hcuts, ?_⟩
    have hk : k < tiles.length := (List.getElem?_eq_some_iff.1 ht).1
    rw [hcuts.remaining]
    omega
  · obtain ⟨t, -, hcuts⟩ := Window.cuts_layout hn.le hw
    exact hcuts.sourceLeft.trans edgeAfter_nil
  · obtain ⟨_, -, hcuts⟩ := Window.cuts_layout hn.le hw
    obtain ⟨_, -, hcuts'⟩ := Window.cuts_layout hn.le hv
    exact hcuts.sourceRight.trans hcuts'.sourceLeft.symm
  · have hend := (n.run.wall.reconcile c).rightEnd_windows
    rw [widths_reconcile] at hend
    refine ⟨_, fun config => ?_, hend.1, hend.2⟩
    rw [answer, CompositeMode.report, h.width_eq hc, Limits.measure_count]

/-- Two outputs that are wider together than a canvas can be. -/
def stretched : List Output :=
  [{ configs := [⟨2147483000, 50, none, none, none⟩] },
    { configs := [⟨4294967295, 50, none, none, none⟩, ⟨600, 50, none, none, none⟩] }]

/-- What becomes of them once they are switched on and told to show their second configuration,
    which only one of them has. -/
def narrowed : Noted (List Revision) :=
  [.setPowerMode .on, .setActiveConfig 1].foldl (Noted.perform revising)
    ⟨(create stretched {}).resting, []⟩

/-- The next frame ends where the mode says that the wall ends. -/
theorem canvas_agrees_narrowed :
    ∃ c, (create stretched {}).Brings revising [] narrowed ∧
      narrowed.run.wall.controller = some c ∧ c.mode.width = 2147483600 ∧
      (∀ b ∈ (narrowed.run.wall.reconcile c).staffing, b = true) ∧
      Window.rightEnd (narrowed.run.wall.reconcile c).windows = 2147483600 := by
  have h : (create stretched {}).Brings revising [] narrowed := by
    refine (Brings.start.perform rfl _).perform ?_ _
    decide +kernel
  have hsome : narrowed.run.wall.controller.map (fun c => (c.mode.width,
      (narrowed.run.wall.reconcile c).staffing)) = some (2147483600, [true, true]) := by
    decide +kernel
  obtain ⟨c, hc, he⟩ := Option.map_eq_some_iff.1 hsome
  obtain ⟨hwidth, hstaff⟩ := Prod.mk.inj he
  have hall : ∀ b ∈ (narrowed.run.wall.reconcile c).staffing, b = true := by
    rw [hstaff]
    decide
  obtain ⟨width, hreport, -, heq⟩ := (h.canvas_agrees hc).2.2
  have hreport := hreport 0
  rw [answer, CompositeMode.report, hwidth] at hreport
  obtain rfl : 2147483600 = width := Except.ok.inj (Reply.report.inj hreport)
  exact ⟨c, h, hc, hwidth, hall, heq hall⟩

end Wall

end VideoWall
