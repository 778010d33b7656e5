import Mathlib.Data.EReal.Basic
import Mathlib.Data.List.Nodup
import VideoWall.Window

/-! Every place of the canvas is shown by one window, and no visible layer is lost in between.

    Windows hang together: each begins where the one before it ends, and none ends before it begins.
    `layout_accepts` draws from this which windows accept a frame, whatever its sides are, and what
    a list of layers comes to when it is assigned to all windows in turn. -/

namespace VideoWall

/-! ### Where coordinates lie -/

namespace Coordinate

/-- The point of the extended line that a coordinate stands for, if it is a number. -/
noncomputable def point (c : Coordinate) : Option EReal :=
  match c.value with
  | .nan => none
  | .infinite neg => some (if neg then ⊥ else ⊤)
  | .finite u => some ((u / pixel : ℝ) : EReal)

/-- A canvas edge on the extended line. -/
noncomputable def ofEdge (edge : Int) : EReal := ((edge : ℝ) : EReal)

theorem ofEdge_le_ofEdge {a b : Int} : ofEdge a ≤ ofEdge b ↔ a ≤ b := by
  rw [ofEdge, ofEdge, EReal.coe_le_coe_iff, Int.cast_le]

theorem pixel_pos : 0 < pixel := by decide

theorem units_le_iff (u edge : Int) : u ≤ edge * pixel ↔ (u / pixel : ℝ) ≤ edge := by
  rw [div_le_iff₀ (Int.cast_pos.2 pixel_pos), ← Int.cast_mul, Int.cast_le]

theorem atMost_iff {c : Coordinate} {x : EReal} (h : c.point = some x) (edge : Int) :
    c.atMost edge = true ↔ x ≤ ofEdge edge := by
  rw [point] at h
  rw [atMost, ofEdge]
  cases hv : c.value with
  | nan => simp [hv] at h
  | infinite neg =>
    rw [hv, Option.some.injEq] at h
    cases neg with
    | true => simp [← h]
    | false => simp [← h]
  | finite u =>
    rw [hv, Option.some.injEq] at h
    rw [← h, EReal.coe_le_coe_iff, decide_eq_true_eq, units_le_iff]

theorem above_iff {c : Coordinate} {x : EReal} (h : c.point = some x) (edge : Int) :
    c.above edge = true ↔ ofEdge edge < x := by
  rw [point] at h
  rw [above, ofEdge]
  cases hv : c.value with
  | nan => simp [hv] at h
  | infinite neg =>
    rw [hv, Option.some.injEq] at h
    cases neg with
    | true => simp [← h]
    | false => simp [← h]
  | finite u =>
    rw [hv, Option.some.injEq] at h
    rw [← h, EReal.coe_lt_coe_iff, decide_eq_true_eq, ← not_le, units_le_iff, not_le]

/-- An edge further left has every coordinate right of it that was right of the edge. -/
theorem above_anti {c : Coordinate} {a b : Int} (hab : a ≤ b) (h : c.above b = true) :
    c.above a = true := by
  unfold above at *
  cases hv : c.value with
  | nan => simp [hv] at h
  | infinite neg => simpa [hv] using h
  | finite u =>
    simp only [hv, decide_eq_true_eq] at h ⊢
    exact Int.lt_of_le_of_lt (Int.mul_le_mul_of_nonneg_right hab pixel_pos.le) h

end Coordinate

namespace Window

open Coordinate

/-- A frame whose sides are numbers is accepted when it ends right of the window's left edge and
    does not begin right of its right edge. -/
theorem accepts_iff {f : Frame} {x₀ x₁ : EReal} (h₀ : f.left.point = some x₀)
    (h₁ : f.right.point = some x₁) (w : Window) :
    w.accepts f = true ↔ ofEdge w.sourceLeft < x₁ ∧ x₀ ≤ ofEdge w.sourceRight := by
  rw [accepts, Bool.not_eq_true', Bool.or_eq_false_iff, ← Bool.not_eq_true, ← Bool.not_eq_true,
    atMost_iff h₁, above_iff h₀, not_le, not_lt]

/-! ### How windows hang together -/

/-- The right edge of the last of some windows; without windows it is the left end of the canvas. -/
def rightEnd (ws : List Window) : Int := (ws.getLast?.map (·.sourceRight)).getD 0

/-- Windows that begin at `left`, each where the one before it ends, numbered from `ordinal` and
    ending at `right`. -/
def Chain (right : Int) : Int → Nat → List Window → Prop
  | left, _, [] => left = right
  | left, ordinal, w :: ws =>
    w.sourceLeft = left ∧ left ≤ w.sourceRight ∧ w.ordinal = ordinal ∧
      Chain right w.sourceRight (ordinal + 1) ws

/-- Adding a width never moves an edge to the left, saturated or not. -/
theorem le_sourceRight_place {left : Int} (h : left ≤ Limits.maxMeasure) (hlo : 0 ≤ left)
    (width index ordinal total : Nat) :
    left ≤ (place left width index ordinal total).sourceRight := by
  simp only [place, Limits.measure, Limits.maxMeasure, Limits.minMeasure] at h ⊢
  omega

theorem chain_layoutFrom (total : Nat) {left : Int} (hlo : 0 ≤ left)
    (hhi : left ≤ Limits.maxMeasure) (ordinal : Nat) (tiles : List Footprint) :
    ∃ right, Chain right left ordinal (layoutFrom total left ordinal tiles) := by
  induction tiles generalizing left ordinal with
  | nil => exact ⟨left, rfl⟩
  | cons t rest ih =>
    have hle := le_sourceRight_place hhi hlo t.width t.logicalIndex ordinal total
    obtain ⟨right, h⟩ := ih (Int.le_trans hlo hle) (Limits.measure_mem _).2 (ordinal + 1)
    exact ⟨right, rfl, hle, rfl, h⟩

variable {right left : Int} {ordinal : Nat} {ws : List Window}

theorem Chain.le (h : Chain right left ordinal ws) : left ≤ right := by
  induction ws generalizing left ordinal with
  | nil => exact Int.le_of_eq h
  | cons w ws ih =>
    obtain ⟨-, hle, -, hrest⟩ := h
    exact Int.le_trans hle (ih hrest)

/-- Every window of a chain lies between its ends. -/
theorem Chain.mem_le (h : Chain right left ordinal ws) {w : Window} (hw : w ∈ ws) :
    left ≤ w.sourceLeft ∧ w.sourceLeft ≤ w.sourceRight ∧ w.sourceRight ≤ right := by
  induction ws generalizing left ordinal with
  | nil => cases hw
  | cons v ws ih =>
    obtain ⟨hl, hle, -, hrest⟩ := h
    rcases List.mem_cons.1 hw with rfl | hw
    · exact ⟨by omega, by omega, hrest.le⟩
    · obtain ⟨h1, h2, h3⟩ := ih hrest hw
      exact ⟨by omega, h2, h3⟩

theorem Chain.map_ordinal (h : Chain right left ordinal ws) :
    ws.map (·.ordinal) = List.range' ordinal ws.length := by
  induction ws generalizing left ordinal with
  | nil => rfl
  | cons w ws ih =>
    obtain ⟨-, -, ho, hrest⟩ := h
    rw [List.map_cons, ho, ih hrest, List.length_cons, List.range'_succ]

/-- A chain of windows ends at the right edge of the last one. -/
theorem Chain.rightEnd_eq (h : Chain right left ordinal ws) (hne : ws ≠ []) :
    rightEnd ws = right := by
  induction ws generalizing left ordinal with
  | nil => exact absurd rfl hne
  | cons w ws ih =>
    obtain ⟨-, -, -, hrest⟩ := h
    cases ws with
    | nil => exact hrest
    | cons v ws => rw [rightEnd, List.getLast?_cons_cons]; exact ih hrest (List.cons_ne_nil v ws)

/-! ### Which windows accept a frame -/

/-- The numbers of the windows that accept a frame. -/
def accepting (f : Frame) (ws : List Window) : List Nat :=
  (ws.filter fun w => w.accepts f).map (·.ordinal)

theorem accepting_cons_of_accepts {f : Frame} {w : Window} (h : w.accepts f = true)
    (ws : List Window) : accepting f (w :: ws) = w.ordinal :: accepting f ws := by
  simp [accepting, h]

theorem accepting_cons_of_not_accepts {f : Frame} {w : Window} (h : w.accepts f = false)
    (ws : List Window) : accepting f (w :: ws) = accepting f ws := by
  simp [accepting, h]

/-- A frame that ends at or left of a chain is accepted nowhere in it. -/
theorem Chain.accepting_eq_nil (h : Chain right left ordinal ws) {f : Frame}
    (hf : f.right.atMost left = true) : accepting f ws = [] := by
  rw [accepting, List.map_eq_nil_iff, List.filter_eq_nil_iff]
  intro w hw
  simp [accepts, atMost_mono (h.mem_le hw).1 hf]

/-- A frame that does not begin right of a chain's left end is accepted by its front alone. -/
theorem Chain.exists_range_of_not_above (h : Chain right left ordinal ws) {f : Frame}
    (hf : f.left.above left = false) :
    ∃ count, accepting f ws = List.range' ordinal count := by
  induction ws generalizing left ordinal with
  | nil => exact ⟨0, rfl⟩
  | cons w ws ih =>
    cases hr : f.right.atMost left with
    | true => exact ⟨0, h.accepting_eq_nil hr⟩
    | false =>
      obtain ⟨hl, hle, ho, hrest⟩ := h
      have hw : f.left.above w.sourceRight = false := by
        rw [← Bool.not_eq_true] at hf ⊢
        exact fun ha => hf (above_anti hle ha)
      have hacc : w.accepts f = true := by simp [accepts, hl, hr, hw]
      obtain ⟨count, hc⟩ := ih hrest hw
      exact ⟨count + 1, by rw [accepting_cons_of_accepts hacc, ho, hc, List.range'_succ]⟩

/-- The windows of a chain that accept a frame stand side by side, whatever the frame is. -/
theorem Chain.exists_range (h : Chain right left ordinal ws) (f : Frame) :
    ∃ start count, accepting f ws = List.range' start count := by
  induction ws generalizing left ordinal with
  | nil => exact ⟨0, 0, rfl⟩
  | cons w ws ih =>
    obtain ⟨-, -, ho, hrest⟩ := h
    cases ha : w.accepts f with
    | false => rw [accepting_cons_of_not_accepts ha]; exact ih hrest
    | true =>
      have hw : f.left.above w.sourceRight = false := by
        rw [accepts, Bool.not_eq_true', Bool.or_eq_false_iff] at ha
        exact ha.2
      obtain ⟨count, hc⟩ := hrest.exists_range_of_not_above hw
      exact ⟨ordinal, count + 1, by rw [accepting_cons_of_accepts ha, ho, hc, List.range'_succ]⟩

/-- A frame with its sides in order is accepted somewhere in a chain exactly when it ends right of
    the chain's left end and does not begin right of its right end. -/
theorem Chain.exists_accepts_iff (h : Chain right left ordinal ws) (hne : ws ≠ []) {f : Frame}
    {x₀ x₁ : EReal} (h₀ : f.left.point = some x₀) (h₁ : f.right.point = some x₁) (hx : x₀ ≤ x₁) :
    (∃ w ∈ ws, w.accepts f = true) ↔ ofEdge left < x₁ ∧ x₀ ≤ ofEdge right := by
  constructor
  · rintro ⟨w, hw, ha⟩
    obtain ⟨hl, -, hr⟩ := h.mem_le hw
    rw [accepts_iff h₀ h₁] at ha
    exact ⟨(ofEdge_le_ofEdge.2 hl).trans_lt ha.1, ha.2.trans (ofEdge_le_ofEdge.2 hr)⟩
  · induction ws generalizing left ordinal with
    | nil => exact absurd rfl hne
    | cons w ws ih =>
      rintro ⟨hl₁, h₀r⟩
      obtain ⟨hl, -, -, hrest⟩ := h
      rcases le_or_gt x₀ (ofEdge w.sourceRight) with hin | hout
      · exact ⟨w, List.mem_cons_self, (accepts_iff h₀ h₁ w).2 ⟨by rwa [hl], hin⟩⟩
      · -- the frame begins further right, so there are further windows to look at
        have hws : ws ≠ [] := by
          rintro rfl
          rw [show w.sourceRight = right from hrest] at hout
          exact absurd h₀r (not_le.2 hout)
        obtain ⟨v, hv, ha⟩ := ih hrest hws ⟨hout.trans_le hx, h₀r⟩
        exact ⟨v, List.mem_cons_of_mem w hv, ha⟩

/-- A place on the canvas lies in a window. -/
def Shows (w : Window) (p : ℝ) : Prop := w.sourceLeft ≤ p ∧ p < w.sourceRight

/-- Every place between the ends of a chain lies in one of its windows, and in no other. -/
theorem Chain.existsUnique_shows (h : Chain right left ordinal ws) {p : ℝ} (hl : left ≤ p)
    (hr : p < right) : ∃! w, w ∈ ws ∧ w.Shows p := by
  induction ws generalizing left ordinal with
  | nil =>
    rw [show left = right from h] at hl
    exact absurd hr (not_lt.2 hl)
  | cons w ws ih =>
    obtain ⟨hw, hle, -, hrest⟩ := h
    rcases lt_or_ge p (w.sourceRight : ℝ) with hin | hout
    · refine ⟨w, ⟨List.mem_cons_self, by rwa [hw], hin⟩, ?_⟩
      rintro v ⟨hv, hvl, -⟩
      rcases List.mem_cons.1 hv with rfl | hv
      · rfl
      · have hwv : (w.sourceRight : ℝ) ≤ v.sourceLeft := Int.cast_le.2 (hrest.mem_le hv).1
        exact absurd hin (not_lt.2 (hwv.trans hvl))
    · obtain ⟨v, ⟨hv, hvs⟩, huniq⟩ := ih hrest hout
      refine ⟨v, ⟨List.mem_cons_of_mem w hv, hvs⟩, ?_⟩
      rintro u ⟨hu, hus⟩
      rcases List.mem_cons.1 hu with rfl | hu
      · exact absurd hus.2 (not_lt.2 hout)
      · exact huniq u ⟨hu, hus⟩

/-- The window that shows a place accepts every frame over it. -/
theorem accepts_of_shows {w : Window} {p : ℝ} (hw : w.Shows p) {f : Frame} {x₀ x₁ : EReal}
    (h₀ : f.left.point = some x₀) (h₁ : f.right.point = some x₁) (hl : x₀ ≤ (p : EReal))
    (hr : (p : EReal) < x₁) : w.accepts f = true := by
  rw [accepts_iff h₀ h₁]
  exact ⟨(EReal.coe_le_coe_iff.2 hw.1).trans_lt hr, hl.trans (EReal.coe_le_coe_iff.2 hw.2.le)⟩

/-! ### Layers for all windows in turn -/

/-- Every window in turn puts its layers behind those of the windows before it. -/
def assignAll (ws : List Window) (layers : List Layer) : List TileLayer :=
  ws.foldl (fun out w => out ++ w.assign layers) []

theorem assignAll_eq_flatMap (ws : List Window) (layers : List Layer) :
    assignAll ws layers = ws.flatMap (·.assign layers) := by
  suffices h : ∀ out, ws.foldl (fun out w => out ++ w.assign layers) out =
      out ++ ws.flatMap (·.assign layers) from h []
  induction ws with
  | nil => intro out; exact (List.append_nil out).symm
  | cons w ws ih => intro out; rw [List.foldl_cons, ih, List.flatMap_cons, List.append_assoc]

theorem constraints_of_mem_assign {w : Window} {layers : List Layer} {t : TileLayer}
    (h : t ∈ w.assign layers) : t.constraints = w.constraints := by
  obtain ⟨l, -, rfl⟩ := List.mem_map.1 h
  rfl

/-- Where no two windows stamp alike, the layers with a window's stamp are those assigned to it. -/
theorem filter_assignAll {ws : List Window} (hnd : (ws.map constraints).Nodup)
    (layers : List Layer) {w : Window} (hw : w ∈ ws) :
    (assignAll ws layers).filter (fun t => t.constraints = w.constraints) = w.assign layers := by
  rw [assignAll_eq_flatMap]
  induction ws with
  | nil => cases hw
  | cons v ws ih =>
    rw [List.map_cons, List.nodup_cons] at hnd
    rw [List.flatMap_cons, List.filter_append]
    rcases List.mem_cons.1 hw with rfl | hw
    · have hfront : (w.assign layers).filter (fun t => t.constraints = w.constraints) =
          w.assign layers :=
        List.filter_eq_self.2 fun t ht => decide_eq_true (constraints_of_mem_assign ht)
      have hrest : (ws.flatMap (·.assign layers)).filter
          (fun t => t.constraints = w.constraints) = [] := by
        refine List.filter_eq_nil_iff.2 fun t ht he => hnd.1 ?_
        obtain ⟨u, hu, htu⟩ := List.mem_flatMap.1 ht
        rw [← of_decide_eq_true he, constraints_of_mem_assign htu]
        exact List.mem_map_of_mem hu
      rw [hfront, hrest, List.append_nil]
    · have hfront : (v.assign layers).filter (fun t => t.constraints = w.constraints) = [] := by
        refine List.filter_eq_nil_iff.2 fun t ht he => hnd.1 ?_
        rw [← constraints_of_mem_assign ht, of_decide_eq_true he]
        exact List.mem_map_of_mem hw
      rw [hfront, List.nil_append]
      exact ih hnd.2 hw

theorem total_of_mem_layoutFrom {total : Nat} {tiles : List Footprint} {w : Window}
    (hw : w ∈ layoutFrom total left ordinal tiles) : w.total = total := by
  induction tiles generalizing left ordinal with
  | nil => cases hw
  | cons t rest ih =>
    rcases List.mem_cons.1 hw with rfl | hw
    · rfl
    · exact ih hw

/-! ### Laid out tiles -/

/-- The windows of some tiles are a chain from the left end of the canvas. -/
theorem chain_layout (tiles : List Footprint) :
    ∃ right, Chain right 0 0 (layout tiles) :=
  chain_layoutFrom _ (Int.le_refl 0) (by decide) 0 tiles

/-- Tiles are counted down to the last, so no two windows stamp alike. -/
theorem nodup_constraints_layout {tiles : List Footprint} (hn : tiles.length < 2 ^ 32 - 1) :
    ((layout tiles).map constraints).Nodup := by
  obtain ⟨right, h⟩ := chain_layout tiles
  have hord := h.map_ordinal
  rw [length_layout] at hord
  have hnd : ((layout tiles).map (·.ordinal)).Nodup := by rw [hord]; exact List.nodup_range'
  have hlt : ∀ w ∈ layout tiles, w.ordinal < tiles.length := by
    intro w hw
    have hm : w.ordinal ∈ List.range' 0 tiles.length := hord ▸ List.mem_map_of_mem hw
    exact (List.mem_range'_1.1 hm).2.trans_eq (Nat.zero_add _)
  have htotal : ∀ w ∈ layout tiles, w.total = tiles.length := by
    intro w hw
    rw [total_of_mem_layoutFrom hw, Limits.count_of_le (Nat.le_of_lt (by omega))]
  refine (List.nodup_map_iff_inj_on hnd.of_map).2 ?_
  intro v hv w hw he
  refine List.inj_on_of_nodup_map hnd hv hw ?_
  have hrem : v.total - v.ordinal = w.total - w.ordinal := congrArg Constraints.remaining he
  have := hlt v hv
  have := hlt w hw
  rw [htotal v hv, htotal w hw] at hrem
  show v.ordinal = w.ordinal
  omega

theorem accepting_ne_nil_iff {f : Frame} {ws : List Window} :
    accepting f ws ≠ [] ↔ ∃ w ∈ ws, w.accepts f = true := by
  rw [accepting, Ne, List.map_eq_nil_iff, List.filter_eq_nil_iff]
  simp

/-- The windows of some tiles are numbered from zero. Those that accept a frame, whatever it is,
    stand side by side; for a frame with its sides in order there are any exactly when it ends right
    of the left end of the canvas and does not begin right of its right end. Every place of the
    canvas is shown by exactly one window, which accepts every frame over that place. Assigned to
    all windows in turn, layers come to those with the stamp of a window being the layers it
    accepts, in their order, and there are none without the stamp of some window. -/
theorem layout_accepts (tiles : List Footprint) (hn : tiles.length < 2 ^ 32 - 1) :
    (layout tiles).map (·.ordinal) = List.range' 0 tiles.length ∧
    (∀ f, ∃ start count, accepting f (layout tiles) = List.range' start count) ∧
    (∀ (f : Frame) (x₀ x₁ : EReal), f.left.point = some x₀ → f.right.point = some x₁ → x₀ ≤ x₁ →
      tiles ≠ [] →
      (accepting f (layout tiles) ≠ [] ↔ 0 < x₁ ∧ x₀ ≤ ofEdge (rightEnd (layout tiles)))) ∧
    (∀ p : ℝ, 0 ≤ p → p < rightEnd (layout tiles) →
      ∃ w ∈ layout tiles, w.Shows p ∧ (∀ v ∈ layout tiles, v.Shows p → v = w) ∧
        ∀ (f : Frame) (x₀ x₁ : EReal), f.left.point = some x₀ → f.right.point = some x₁ →
          x₀ ≤ (p : EReal) → (p : EReal) < x₁ → w.accepts f = true) ∧
    ∀ layers,
      (∀ w ∈ layout tiles,
        (assignAll (layout tiles) layers).filter (fun t => t.constraints = w.constraints) =
          (layers.filter fun l => w.accepts l.frame).map fun l => ⟨l, w.constraints⟩) ∧
      ∀ t ∈ assignAll (layout tiles) layers, ∃ w ∈ layout tiles, t.constraints = w.constraints := by
  obtain ⟨right, h⟩ := chain_layout tiles
  have hlen := length_layout tiles
  have hzero : ofEdge 0 = 0 := by rw [ofEdge, Int.cast_zero]; rfl
  refine ⟨hlen ▸ h.map_ordinal, h.exists_range, ?_, ?_, ?_⟩
  · intro f x₀ x₁ h₀ h₁ hx hne
    have hws : layout tiles ≠ [] := by
      rwa [← List.length_pos_iff, hlen, List.length_pos_iff]
    rw [accepting_ne_nil_iff, h.exists_accepts_iff hws h₀ h₁ hx, hzero, h.rightEnd_eq hws]
  · intro p hp hpr
    have hws : layout tiles ≠ [] := by
      intro he
      rw [he] at hpr
      exact absurd hp (not_le.2 (by simpa [rightEnd] using hpr))
    rw [h.rightEnd_eq hws] at hpr
    obtain ⟨w, ⟨hw, hs⟩, huniq⟩ := h.existsUnique_shows (by simpa using hp) hpr
    exact ⟨w, hw, hs, fun v hv hvs => huniq v ⟨hv, hvs⟩, fun f x₀ x₁ h₀ h₁ hl hr =>
      accepts_of_shows hs h₀ h₁ hl hr⟩
  · intro layers
    refine ⟨fun w hw => filter_assignAll (nodup_constraints_layout hn) layers hw, fun t ht => ?_⟩
    rw [assignAll_eq_flatMap] at ht
    obtain ⟨w, hw, htw⟩ := List.mem_flatMap.1 ht
    exact ⟨w, hw, constraints_of_mem_assign htw⟩

/-- Three tiles, the last of them wider than the canvas can be, and a frame from 1 to infinity. -/
theorem layout_accepts_three :
    let tiles : List Footprint := [⟨1920, 0⟩, ⟨0, 1⟩, ⟨4294967295, 2⟩]
    let one : Coordinate := ⟨0x3ff0000000000000⟩
    let infinity : Coordinate := ⟨0x7ff0000000000000⟩
    let f : Frame := ⟨one, one, infinity, one⟩
    f.left.point = some 1 ∧ f.right.point = some ⊤ ∧ rightEnd (layout tiles) = 2147483647 ∧
      accepting f (layout tiles) ≠ [] ∧
      (∃ w ∈ layout tiles, w.Shows 1920 ∧ w.accepts f = true) ∧
      ∃ w ∈ layout tiles, w.ordinal = 1 ∧
        (assignAll (layout tiles) [⟨⟨7⟩, f, none⟩]).filter
          (fun t => t.constraints = w.constraints) = [⟨⟨⟨7⟩, f, none⟩, w.constraints⟩] := by
  intro tiles one infinity f
  have hl : f.left.point = some 1 := by
    have hv : one.value = .finite pixel := by decide +kernel
    have hp : (pixel : ℝ) ≠ 0 := Int.cast_ne_zero.2 pixel_pos.ne'
    show one.point = some 1
    rw [point, hv]
    simp only [div_self hp, EReal.coe_one]
  have hr : f.right.point = some ⊤ := by
    have hv : infinity.value = .infinite false := by decide +kernel
    show infinity.point = some ⊤
    rw [point, hv]
    rfl
  have hend : rightEnd (layout tiles) = 2147483647 := by decide
  let second : Window := ⟨1, 3, 1920, 1920, 0, 0⟩
  have hsecond : second ∈ layout tiles := by decide
  have hacc : second.accepts f = true := by decide +kernel
  obtain ⟨-, -, hne, hshow, hassign⟩ := layout_accepts tiles (by decide)
  refine ⟨hl, hr, hend, ?_, ?_, second, hsecond, rfl, ?_⟩
  · refine (hne f 1 ⊤ hl hr le_top (by decide)).2 ⟨EReal.coe_lt_top 0, ?_⟩
    rw [hend, ofEdge, ← EReal.coe_one, EReal.coe_le_coe_iff]
    norm_num
  · obtain ⟨w, hw, hs, -, ha⟩ := hshow 1920 (by norm_num) (by rw [hend]; norm_num)
    refine ⟨w, hw, hs, ha f 1 ⊤ hl hr ?_ (EReal.coe_lt_top 1920)⟩
    rw [← EReal.coe_one, EReal.coe_le_coe_iff]
    norm_num
  · rw [(hassign [⟨⟨7⟩, f, none⟩]).1 second hsecond]
    simp [hacc]

end Window

end VideoWall
