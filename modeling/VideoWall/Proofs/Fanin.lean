import VideoWall.Proofs.Drain
import VideoWall.Proofs.Flips
import VideoWall.Proofs.Frame
import VideoWall.Proofs.Ledger
import VideoWall.Proofs.Records

/-! From the bytes that the outputs' devices hand out to the vsyncs that a host is told.

    Every connected output owns a running loop that forwards its flips to the controller, which
    averages them. Whatever the readings hold and in whichever order they come in, the host is told
    one vsync for every so many flips as outputs are connected, in the order in which the flips were
    come to: `Wall.Streaming.feeds`. What the controller holds is a function of the times so far, so
    every step either adds one time or none. -/

namespace VideoWall

namespace Vsync

/-! ### Batches of times -/

/-- The means of as many full batches of `n` as there are among some times, in order. -/
def means (n : Nat) (times : List Int) : List Int :=
  (List.range (times.length / n)).map fun j =>
    (saturatingSum ((times.drop (j * n)).take n)).tdiv n

/-- The times behind the last full batch of `n`. -/
def remainder (n : Nat) (times : List Int) : List Int := times.drop (times.length / n * n)

variable {n : Nat} (times : List Int) (t : Int)

theorem length_remainder : (remainder n times).length = times.length % n := by
  rw [remainder, List.length_drop, Nat.mul_comm, Nat.mod_eq_sub]

/-- A full batch does not change when another time comes in. -/
theorem batch_concat {j : Nat} (h : j < times.length / n) :
    ((times ++ [t]).drop (j * n)).take n = (times.drop (j * n)).take n := by
  have hle : (j + 1) * n ≤ times.length :=
    Nat.le_trans (Nat.mul_le_mul_right n h) (Nat.div_mul_le_self _ _)
  rw [Nat.succ_mul] at hle
  rw [List.drop_append_of_le_length (by omega), List.take_append_of_le_length]
  rw [List.length_drop]
  omega

/-- The time that fills a batch adds its mean, and nothing remains. -/
theorem means_concat_of_full (hn : 0 < n) (h : times.length % n + 1 = n) :
    means n (times ++ [t]) =
        means n times ++ [(saturatingSum (remainder n times ++ [t])).tdiv n] ∧
      remainder n (times ++ [t]) = [] := by
  have hlen : (times ++ [t]).length = (times.length / n + 1) * n := by
    have := Nat.div_add_mod' times.length n
    rw [List.length_append, List.length_singleton, Nat.succ_mul]
    omega
  have hdiv : (times ++ [t]).length / n = times.length / n + 1 := by
    rw [hlen, Nat.mul_div_cancel _ hn]
  have hlast : ((times ++ [t]).drop (times.length / n * n)).take n = remainder n times ++ [t] := by
    rw [List.drop_append_of_le_length (Nat.div_mul_le_self _ _), ← remainder,
      List.take_of_length_le]
    rw [List.length_append, length_remainder, List.length_singleton]
    omega
  refine ⟨?_, ?_⟩
  · rw [means, hdiv, List.range_succ, List.map_append, List.map_singleton, hlast, means]
    refine congrArg (· ++ _) (List.map_congr_left fun j hj => ?_)
    rw [batch_concat times t (List.mem_range.1 hj)]
  · rw [remainder, hdiv, ← hlen, List.drop_length]

/-- Any other time remains. -/
theorem means_concat_of_not_full (h : times.length % n + 1 ≠ n) (hn : 0 < n) :
    means n (times ++ [t]) = means n times ∧
      remainder n (times ++ [t]) = remainder n times ++ [t] := by
  have hdiv : (times ++ [t]).length / n = times.length / n := by
    have hlt := Nat.mod_lt times.length hn
    have := Nat.div_add_mod' times.length n
    rw [List.length_append, List.length_singleton]
    refine Nat.div_eq_of_lt_le ?_ ?_
    · omega
    · rw [Nat.succ_mul]
      omega
  refine ⟨?_, ?_⟩
  · rw [means, hdiv, means]
    refine List.map_congr_left fun j hj => ?_
    rw [batch_concat times t (List.mem_range.1 hj)]
  · rw [remainder, hdiv, List.drop_append_of_le_length (Nat.div_mul_le_self _ _), remainder]

/-- The cycle for `n` outputs after some times. -/
def cycleAfter (n : Nat) (times : List Int) : Cycle := Ledger.cycle ⟨n, remainder n times⟩

theorem cycleAfter_nil (n : Nat) : cycleAfter n [] = .fresh n := by
  rw [cycleAfter, remainder, List.drop_nil]
  rfl

/-- Another time takes the cycle on; the mean that it returns, if any, is that of a batch which it
    fills. -/
theorem observe_cycleAfter (hn : 0 < n) :
    ∃ mean, (cycleAfter n times).observe t = (cycleAfter n (times ++ [t]), mean) ∧
      means n (times ++ [t]) = means n times ++ mean.toList := by
  have hlt : (remainder n times).length < n := by
    rw [length_remainder]
    exact Nat.mod_lt _ hn
  have hopen : Ledger.Open ⟨n, remainder n times⟩ := .inr hlt
  have h0 : n ≠ 0 := Nat.pos_iff_ne_zero.1 hn
  rw [cycleAfter, Ledger.cycle_observe hopen]
  by_cases hf : times.length % n + 1 = n
  · obtain ⟨hm, hr⟩ := means_concat_of_full times t hn hf
    rw [Ledger.act_observe_last (by rw [length_remainder]; exact hf)]
    exact ⟨some _, by rw [cycleAfter, hr], hm⟩
  · obtain ⟨hm, hr⟩ := means_concat_of_not_full times t hf hn
    rw [Ledger.act_observe_more h0 (by rw [length_remainder]; exact hf)]
    exact ⟨none, by rw [cycleAfter, hr], by rw [hm]; exact (List.append_nil _).symm⟩

end Vsync

/-! ### Streaming walls -/

namespace Vblank

/-- The times of the completed flips in some readings, in order. -/
def flipTimes (xs : List Reading) : List Int := (xs.flatMap Reading.flips).map Drm.Flip.time

/-- A reading that holds some records. -/
def Reading.drafts (ds : List Drm.Draft) : Reading := .bytes (ds.flatMap Drm.Draft.bytes)

/-- The completed flips among some records are those of a reading that has room for them. -/
theorem Reading.flips_drafts (ds : List Drm.Draft)
    (h : (ds.flatMap Drm.Draft.bytes).length ≤ bufferLength) :
    (Reading.drafts ds).flips = ds.filterMap fun d => flipOf? (.ok d.event) := by
  rw [drafts, flips, List.take_of_length_le h, Drm.decode_drafts, List.filterMap_map]
  rfl

@[simp] theorem flipTimes_nil : flipTimes [] = [] := rfl

theorem flipTimes_cons (x : Reading) (xs : List Reading) :
    flipTimes (x :: xs) = x.flips.map Drm.Flip.time ++ flipTimes xs := by
  rw [flipTimes, List.flatMap_cons, List.map_append, flipTimes]

theorem flipTimes_append (xs ys : List Reading) :
    flipTimes (xs ++ ys) = flipTimes xs ++ flipTimes ys := by
  rw [flipTimes, List.flatMap_append, List.map_append, flipTimes, flipTimes]

end Vblank

/-- A loop that runs, forwards its flips to the controller, and has nothing left to read. -/
structure Vblank.Loop.Live (l : Vblank.Loop Unit) : Prop where
  running : l.running = true
  enabled : l.enabled = true
  callback_eq : l.callback = some ()
  queued_eq : l.device.queued = []
  timely : l.interval.Timely

/-- A reading that arrives at a live loop is the next one. -/
theorem Vblank.Loop.Live.take?_enqueue {l : Vblank.Loop Unit} (h : l.Live) (x : Vblank.Reading) :
    (l.enqueue x).take? = some (x, l) := by
  obtain ⟨pipe, running, callback, display, enabled, interval, idle, queued, refuses, inert, armed,
    request⟩ := l
  obtain rfl : running = true := h.running
  obtain rfl : queued = [] := h.queued_eq
  rfl

/-- A running loop is live once it has its callback and forwards. -/
theorem Vblank.Loop.Live.of_setup {l : Vblank.Loop Unit} (hr : l.running = true)
    (hq : l.device.queued = []) {display : DisplayId} :
    ((l.register () display).control true).1.Live := by
  rw [Vblank.Loop.control]
  split
  · next he => exact ⟨hr, he, rfl, hq, l.interval.timely_reset⟩
  · exact ⟨hr, rfl, rfl, hq, l.interval.timely_reset⟩

/-- Which outputs are connected, and who is told about their vsync: a listener with its tag, on
    behalf of a display. -/
structure Upstream where
  plugged : List Bool
  listener : Nat
  tag : String
  display : DisplayId

namespace Upstream

/-- How many outputs take part. -/
def outputs (u : Upstream) : Nat := u.plugged.count true

/-- What the listener is told of some times. -/
def told (u : Upstream) (times : List Int) : List Event :=
  (Vsync.means u.outputs times).map fun mean => .told u.listener u.tag u.display (.vsync mean)

end Upstream

/-- A wall whose connected outputs all have live loops, whose vsync is enabled, and whose listener
    does nothing but listen; `times` have come in since the cycle began. -/
structure Wall.Streaming (u : Upstream) (times : List Int) (w : Wall) : Prop where
  held : w.held = true
  delivering_eq : w.delivering = 0
  plugged_eq : w.plugged = u.plugged
  loops : ∀ t ∈ w.tiles, t.output.connected = true → ∃ l, t.output.loop = some l ∧ l.Live
  listener : ∃ l, w.listeners[u.listener]? = some l ∧ l.tag = u.tag ∧ l.script = []
  controller : ∃ c, w.controller = some c ∧ c.vsyncEnabled = true ∧
    c.vsyncListener = some u.listener ∧ c.display = u.display ∧
    c.cycle = Vsync.cycleAfter u.outputs times

variable {u : Upstream} {times new : List Int} {i : Nat}

namespace Wall

variable {w : Wall}

/-- The loop of a connected output. -/
theorem Streaming.exists_loop (h : w.Streaming u times) (hi : u.plugged[i]? = some true) :
    ∃ l, w.outputs[i]?.bind (·.loop) = some l ∧ l.Live := by
  rw [← h.plugged_eq, plugged, List.getElem?_map] at hi
  obtain ⟨t, ht, hc⟩ := Option.map_eq_some_iff.1 hi
  obtain ⟨l, hl, hlive⟩ := h.loops t (List.mem_of_getElem? ht) hc
  exact ⟨l, by simp [outputs, ht, hl], hlive⟩

/-- A live loop may take the place of another one. -/
theorem Streaming.setLoop (h : w.Streaming u times) (i : Nat) {l : Vblank.Loop Unit}
    (hl : l.Live) : (w.setOutput i (·.mapLoop fun _ => l)).Streaming u times where
  held := h.held
  delivering_eq := h.delivering_eq
  plugged_eq := (w.plugged_setTile i fun _ _ => by rfl).trans h.plugged_eq
  loops := by
    intro t ht hc
    obtain ⟨j, hj⟩ := List.mem_iff_getElem?.1 ht
    rw [setOutput, setTile, List.getElem?_modify] at hj
    obtain ⟨t', ht', rfl⟩ := Option.map_eq_some_iff.1 hj
    have hmem := List.mem_of_getElem? ht'
    by_cases hij : i = j
    · rw [if_pos hij] at hc ⊢
      obtain ⟨m, hm, -⟩ := h.loops t' hmem hc
      exact ⟨l, by simp [Output.mapLoop, hm], hl⟩
    · rw [if_neg hij] at hc ⊢
      exact h.loops t' hmem hc
  listener := h.listener
  controller := h.controller

/-- Whatever becomes of a loop, the last change of it counts. -/
theorem setOutput_mapLoop_const (w : Wall) (i : Nat) (f : Vblank.Loop Unit → Vblank.Loop Unit)
    (l : Vblank.Loop Unit) :
    (w.setOutput i (·.mapLoop f)).setOutput i (·.mapLoop fun _ => l) =
      w.setOutput i (·.mapLoop fun _ => l) := by
  simp only [setOutput, setTile, List.modify_modify_eq]
  simp [Function.comp_def, Output.mapLoop, Option.map_map]

theorem loop_setOutput {l : Vblank.Loop Unit} (hl : w.outputs[i]?.bind (·.loop) = some l)
    (f : Vblank.Loop Unit → Vblank.Loop Unit) :
    (w.setOutput i (·.mapLoop f)).outputs[i]?.bind (·.loop) = some (f l) := by
  obtain ⟨t, ht, hlt⟩ := tile_of_loop hl
  simp [outputs, setOutput, setTile, ht, hlt, Output.mapLoop]

/-- A flip that its loop forwards is a vblank. -/
theorem exists_item_of_call {l : Vblank.Loop Unit} {f : Drm.Flip} {call : Vblank.Call Unit}
    (hl : w.outputs[i]?.bind (·.loop) = some l) (hcall : (l.flip f).2.2 = some call) :
    ∃ log, w.item i (.flip f) =
      { (w.setOutput i (·.mapLoop fun _ => (l.flip f).1)).enter (·.vblank call.time)
        with log } := by
  rcases w.item_cases i (.flip f) with ⟨log, -, hnone⟩ | ⟨m, g, log, hm, hg, hitem⟩
  · rw [hl] at hnone
    simp [Vblank.Item.isFlip] at hnone
  · cases hg
    obtain rfl : l = m := Option.some.inj (hl.symm.trans hm)
    rcases hitem with ⟨hno, -⟩ | ⟨call', hyes, he⟩
    · rw [hcall] at hno
      cases hno
    · obtain rfl : call = call' := Option.some.inj (hcall.symm.trans hyes)
      exact ⟨log, he⟩

/-- A wall in the middle of a call of a loop. -/
structure Calling (u : Upstream) (times : List Int) (w : Wall) : Prop where
  delivering_eq : w.delivering = 1
  streaming : { w with delivering := 0 }.Streaming u times

/-- A flip adds its time; if that fills a batch, the listener is about to be told. -/
theorem Streaming.enter (h : w.Streaming u times) (hn : 0 < u.outputs) (t : Int) :
    ∃ (v : Wall) (mean : Option Int), v.Calling u (times ++ [t]) ∧
      Vsync.means u.outputs (times ++ [t]) = Vsync.means u.outputs times ++ mean.toList ∧
      w.enter (·.vblank t) =
        { wall := v
          tasks := mean.toList.map (fun m => .deliver ⟨u.listener, u.display, .vsync m⟩) ++
            [.leave] } := by
  obtain ⟨c, hc, hv, hl, hd, hcycle⟩ := h.controller
  obtain ⟨mean, hobs, hmeans⟩ := Vsync.observe_cycleAfter times t hn
  have hvblank : c.vblank t = ({ c with cycle := Vsync.cycleAfter u.outputs (times ++ [t]) },
      mean.toList.map fun m => ⟨u.listener, u.display, .vsync m⟩) := by
    rw [Controller.vblank, hv, hl, hcycle, hobs, hd]
  refine ⟨{ w with
    controller := some { c with cycle := Vsync.cycleAfter u.outputs (times ++ [t]) }
    delivering := w.delivering + 1 }, mean, ⟨?_, ?_⟩, hmeans, ?_⟩
  · rw [h.delivering_eq]
  · exact ⟨h.held, rfl, h.plugged_eq, h.loops, h.listener, _, rfl, hv, hl, hd, rfl⟩
  · rw [Wall.enter, hc]
    dsimp only
    rw [hvblank, List.map_map]
    rfl

/-- The listener is told, and does nothing. -/
theorem Calling.deliver (h : w.Calling u times) (mean : Int) :
    ∃ v, v.Calling u times ∧ w.deliver ⟨u.listener, u.display, .vsync mean⟩ =
      { wall := v, events := [.told u.listener u.tag u.display (.vsync mean)] } := by
  obtain ⟨⟨tag, script, left⟩, hl, htag, hscript⟩ := h.streaming.listener
  obtain rfl : tag = u.tag := htag
  obtain rfl : script = [] := hscript
  have hl : w.listeners[u.listener]? = some ⟨u.tag, [], left⟩ := hl
  rw [Wall.deliver, hl]
  cases left with
  | zero => exact ⟨w, h, rfl⟩
  | succ left =>
    have hs := h.streaming
    have hlt := (List.getElem?_eq_some_iff.1 hl).1
    refine ⟨{ w with listeners := w.listeners.set u.listener ⟨u.tag, [], left⟩ },
      ⟨h.delivering_eq, hs.held, rfl, hs.plugged_eq, hs.loops, ?_, hs.controller⟩, rfl⟩
    exact ⟨⟨u.tag, [], left⟩, List.getElem?_set_self hlt, rfl, rfl⟩

/-- The call is over. -/
theorem Calling.leave (h : w.Calling u times) (mark : Nat) :
    ∃ v, v.Streaming u times ∧ w.exec mark .leave = { wall := v } := by
  refine ⟨{ w with delivering := 0 }, h.streaming, ?_⟩
  have hheld : { w with delivering := 0 }.held = true := h.streaming.held
  rw [exec, h.delivering_eq, settle_of_held hheld]

end Wall

/-! ### What each task adds -/

namespace Run

/-- A run comes from `r` to `s` with the times `new`: the wall streams on, no loop is left waiting,
    and the listener is told what the times ask for. -/
structure Takes (u : Upstream) (times new : List Int) (r s : Run) : Prop where
  streaming : s.wall.Streaming u (times ++ new)
  late_eq : s.late = r.late
  told : ∃ es, s.events = r.events ++ es ∧ u.told (times ++ new) = u.told times ++ es

variable {r s v : Run}

theorem Takes.trans {new' : List Int} (h : Takes u times new r s)
    (h' : Takes u (times ++ new) new' s v) : Takes u times (new ++ new') r v := by
  obtain ⟨es, hes, ht⟩ := h.told
  obtain ⟨es', hes', ht'⟩ := h'.told
  have hassoc := List.append_assoc times new new'
  refine ⟨hassoc ▸ h'.streaming, h'.late_eq.trans h.late_eq, es ++ es', ?_, ?_⟩
  · rw [hes', hes, List.append_assoc]
  · rw [← hassoc, ht', ht, List.append_assoc]

/-- No time comes in, and nobody is told anything. -/
theorem takes_nil (hs : s.wall.Streaming u times) (hl : s.late = r.late)
    (he : s.events = r.events) : Takes u times [] r s :=
  ⟨(List.append_nil times).symm ▸ hs, hl, [], by rw [he, List.append_nil], by simp⟩

/-- To do nothing. -/
theorem takes_after_nil (h : r.wall.Streaming u times) : Takes u times [] r (r.after []) := by
  rw [after_nil]
  exact takes_nil h rfl rfl

/-- A task that leaves nothing behind, and nobody is told anything. -/
theorem takes_of_exec {t : Task} {e : Effect} (h : ∀ mark, t ≠ .group mark)
    (he : r.wall.exec r.events.length t = e) (hs : e.wall.Streaming u times)
    (hn : e.events = [] ∧ e.tasks = [] ∧ e.late = []) : Takes u times [] r (r.after [t]) := by
  obtain ⟨hevents, htasks, hlate⟩ := hn
  rw [after_eq_of_tasks h he htasks]
  refine takes_nil hs ?_ ?_
  · rw [incur, hlate, List.append_nil]
  · rw [incur, hevents, List.append_nil]

/-- The rest of a call: the listener is told, if at all, and the call is over. -/
theorem after_calling (h : r.wall.Calling u times) (mean : Option Int) :
    let s := r.after
      (mean.toList.map (fun m => .deliver ⟨u.listener, u.display, .vsync m⟩) ++ [.leave])
    s.wall.Streaming u times ∧ s.late = r.late ∧ s.events = r.events ++
      mean.toList.map fun m => .told u.listener u.tag u.display (.vsync m) := by
  have hleave : ∀ s : Run, s.wall.Calling u times → (s.after [.leave]).wall.Streaming u times ∧
      (s.after [.leave]).late = s.late ∧ (s.after [.leave]).events = s.events := by
    intro s hs
    obtain ⟨v, hv, he⟩ := hs.leave s.events.length
    rw [after_eq_of_tasks (by simp) he rfl]
    exact ⟨hv, List.append_nil _, List.append_nil _⟩
  intro s
  cases mean with
  | none =>
    obtain ⟨hs, hl, he⟩ := hleave r h
    exact ⟨hs, hl, he.trans (List.append_nil _).symm⟩
  | some m =>
    obtain ⟨v, hv, he⟩ := h.deliver m
    have hd : r.after [.deliver ⟨u.listener, u.display, .vsync m⟩] = _ :=
      after_eq_of_tasks (by simp) he rfl
    have hs : s = (r.after [.deliver ⟨u.listener, u.display, .vsync m⟩]).after [.leave] :=
      after_append r [_] _
    obtain ⟨hw, hl, he⟩ := hleave (r.after [.deliver ⟨u.listener, u.display, .vsync m⟩])
      (by rw [hd]; exact hv)
    rw [hs]
    refine ⟨hw, ?_, ?_⟩
    · rw [hl, hd]
      exact List.append_nil _
    · rw [he, hd]
      rfl

/-- One item of a reading: a completed flip adds its time. -/
theorem takes_item (h : r.wall.Streaming u times) (hn : 0 < u.outputs)
    (hi : u.plugged[i]? = some true) (x : Vblank.Item) :
    Takes u times (x.flip?.toList.map Drm.Flip.time) r (r.after [.item i x]) := by
  obtain ⟨l, hl, hlive⟩ := h.exists_loop hi
  cases x with
  | remark m =>
    rcases r.wall.item_cases i (.remark m) with ⟨log, he, -⟩ | ⟨_, f, _, -, hf, -⟩
    · exact takes_of_exec (by simp) he h ⟨rfl, rfl, rfl⟩
    · cases hf
  | flip f =>
    obtain ⟨rs, hf⟩ := Vblank.Loop.flip_eq hlive.timely f
    have hcall : l.forward? f = some ⟨(), l.display, f.time⟩ := by
      rw [Vblank.Loop.forward?, hlive.enabled, hlive.callback_eq]
      rfl
    have hset := h.setLoop i (l := { l with interval := ⟨some f.time⟩ })
      ⟨hlive.running, hlive.enabled, hlive.callback_eq, hlive.queued_eq,
        FrameInterval.timely_flip f⟩
    obtain ⟨v, mean, hv, hmeans, he⟩ := hset.enter hn f.time
    obtain ⟨e, hexec, hw, ht, hl', hev⟩ : ∃ e : Effect,
        r.wall.exec r.events.length (.item i (.flip f)) = e ∧ e.wall = v ∧
        e.tasks = mean.toList.map (fun m => .deliver ⟨u.listener, u.display, .vsync m⟩) ++
          [.leave] ∧ e.late = [] ∧ e.events = [] := by
      obtain ⟨log, hitem⟩ := Wall.exists_item_of_call hl ((congrArg (·.2.2) hf).trans hcall)
      rw [hf] at hitem
      refine ⟨_, rfl, ?_⟩
      simp only [Wall.exec, hitem, he, and_self]
    have hcalling : (r.incur e).wall.Calling u (times ++ [f.time]) := by rw [incur, hw]; exact hv
    obtain ⟨hs, hlate, hevents⟩ := after_calling hcalling mean
    rw [after_eq (by simp) hexec, ht]
    refine ⟨hs, ?_, mean.toList.map fun m => .told u.listener u.tag u.display (.vsync m), ?_, ?_⟩
    · rw [hlate, incur, hl', List.append_nil]
    · rw [hevents, incur, hev, List.append_nil]
    · rw [Upstream.told, Upstream.told, ← List.map_append, ← hmeans]
      rfl

/-- All items of a reading, one after the other. -/
theorem takes_items (h : r.wall.Streaming u times) (hn : 0 < u.outputs)
    (hi : u.plugged[i]? = some true) (xs : List Vblank.Item) :
    Takes u times ((xs.filterMap Vblank.Item.flip?).map Drm.Flip.time) r
      (r.after (xs.map (.item i))) := by
  induction xs generalizing r times with
  | nil => exact takes_after_nil h
  | cons x xs ih =>
    have hx := takes_item h hn hi x
    have hnew : ((x :: xs).filterMap Vblank.Item.flip?).map Drm.Flip.time =
        x.flip?.toList.map Drm.Flip.time ++
          (xs.filterMap Vblank.Item.flip?).map Drm.Flip.time := by
      cases x <;> rfl
    have happ : r.after ((x :: xs).map (.item i)) =
        (r.after [.item i x]).after (xs.map (.item i)) := after_append r [_] _
    rw [hnew, happ]
    exact hx.trans (ih hx.streaming)

/-- The next vblank request. -/
theorem takes_arm (h : r.wall.Streaming u times) (hi : u.plugged[i]? = some true) :
    Takes u times [] r (r.after [.arm i]) := by
  obtain ⟨l, hl, hlive⟩ := h.exists_loop hi
  have harm : l.arm.1.Live :=
    ⟨hlive.running, hlive.enabled, hlive.callback_eq, hlive.queued_eq, hlive.timely⟩
  rcases r.wall.arm_cases i with ⟨-, hnone⟩ | ⟨l', hl', he⟩
  · rw [hl] at hnone
    cases hnone
  · obtain rfl : l = l' := Option.some.inj (hl.symm.trans hl')
    exact takes_of_exec (by simp) he (h.setLoop i harm) ⟨rfl, rfl, rfl⟩

/-- There is nothing more to read. -/
theorem takes_poll (h : r.wall.Streaming u times) (hi : u.plugged[i]? = some true) :
    Takes u times [] r (r.after [.poll i]) := by
  obtain ⟨l, hl, hlive⟩ := h.exists_loop hi
  have htake : l.take? = none := by rw [Vblank.Loop.take?, hlive.running, hlive.queued_eq]
  rcases r.wall.poll_cases i with ⟨he, -⟩ | ⟨l', _, _, hl', htake', -⟩
  · exact takes_of_exec (by simp) he h ⟨rfl, rfl, rfl⟩
  · rw [← Option.some.inj (hl.symm.trans hl'), htake] at htake'
    cases htake'

/-- A reading is handled as it arrives: it adds the times of its completed flips. -/
theorem takes_arrive (h : r.wall.Streaming u times) (hn : 0 < u.outputs)
    (hi : u.plugged[i]? = some true) (x : Vblank.Reading) :
    Takes u times (x.flips.map Drm.Flip.time) r (r.after [.arrive i x]) := by
  obtain ⟨l, hl, hlive⟩ := h.exists_loop hi
  -- the reading waits on the device until the loop polls it, and is taken off again at once
  have harrive : r.wall.exec r.events.length (.arrive i x) =
      { wall := r.wall.setOutput i (·.mapLoop (·.enqueue x)), tasks := [.poll i] } := by
    exact (r.wall.arrive_cases i x).resolve_left fun hlate => hlate.2 h.delivering_eq
  have hpoll : ∀ mark, (r.wall.setOutput i (·.mapLoop (·.enqueue x))).exec mark (.poll i) =
      { wall := r.wall.setOutput i (·.mapLoop fun _ => l)
        tasks := x.items.map (.item i) ++ ([.arm i] ++ [.poll i]) } := by
    intro mark
    have hl' := Wall.loop_setOutput hl (·.enqueue x)
    rcases (r.wall.setOutput i (·.mapLoop (·.enqueue x))).poll_cases i with
      ⟨-, hnone⟩ | ⟨m, y, m', hm, htake, he⟩
    · rw [hl', Option.bind_some, hlive.take?_enqueue] at hnone
      cases hnone
    · rw [← Option.some.inj (hl'.symm.trans hm), hlive.take?_enqueue] at htake
      cases htake
      rw [Wall.exec, he, Wall.setOutput_mapLoop_const]
      rfl
  rw [after_eq (by simp) harrive, after_eq (by simp) (hpoll _), after_append, after_append]
  generalize hs : (r.incur _).incur _ = s
  have htaken : Takes u times [] r s := by
    rw [← hs]
    exact takes_nil (h.setLoop i hlive) (by simp [incur]) (by simp [incur])
  have hitems := htaken.trans (takes_items htaken.streaming hn hi x.items)
  have harm := hitems.trans (takes_arm hitems.streaming hi)
  have hall := harm.trans (takes_poll harm.streaming hi)
  simpa [x.filterMap_items] using hall

/-- Readings are handled one after the other. -/
theorem takes_arrivals (h : r.wall.Streaming u times) (hn : 0 < u.outputs)
    (hi : u.plugged[i]? = some true) (xs : List Vblank.Reading) :
    Takes u times (Vblank.flipTimes xs) r (r.after (xs.map (.arrive i))) := by
  induction xs generalizing r times with
  | nil => exact takes_after_nil h
  | cons x xs ih =>
    have hx := takes_arrive h hn hi x
    have happ : r.after ((x :: xs).map (.arrive i)) =
        (r.after [.arrive i x]).after (xs.map (.arrive i)) := after_append r [_] _
    rw [Vblank.flipTimes_cons, happ]
    exact hx.trans (ih hx.streaming)

end Run

/-! ### From readings to vsyncs -/

namespace Wall

variable {w : Wall}

/-- Performs operations, one after the other, and takes down what can be seen. -/
def performAll (w : Wall) : List Op → Wall × List Event
  | [] => (w, [])
  | op :: ops =>
    let (v, report) := w.perform op
    let (v', events) := v.performAll ops
    (v', report.events ++ events)

/-- Readings for one output: nothing is seen but what the listener is told. -/
theorem Streaming.perform_feed (h : w.Streaming u times) (hn : 0 < u.outputs)
    (hi : u.plugged[i]? = some true) (xs : List Vblank.Reading) :
    (w.perform (.feed i xs)).1.Streaming u (times ++ Vblank.flipTimes xs) ∧
      u.told (times ++ Vblank.flipTimes xs) =
        u.told times ++ (w.perform (.feed i xs)).2.events := by
  have htakes : Run.Takes u times (Vblank.flipTimes xs) (w.resting.begin (.feed i xs))
      (w.resting.call (.feed i xs)) :=
    Run.takes_arrivals (r := w.resting.begin (.feed i xs)) h hn hi xs
  obtain ⟨es, hes, htold⟩ := htakes.told
  rw [perform, runOf_eq_call htakes.late_eq]
  refine ⟨htakes.streaming, ?_⟩
  rw [htold, show es = _ from hes.symm]

/-- Readings for any connected outputs, in any order. -/
theorem Streaming.performAll_feeds (h : w.Streaming u times) (hn : 0 < u.outputs)
    (feeds : List (Nat × List Vblank.Reading)) (hf : ∀ f ∈ feeds, u.plugged[f.1]? = some true) :
    (w.performAll (feeds.map fun f => .feed f.1 f.2)).1.Streaming u
        (times ++ Vblank.flipTimes (feeds.flatMap (·.2))) ∧
      u.told (times ++ Vblank.flipTimes (feeds.flatMap (·.2))) =
        u.told times ++ (w.performAll (feeds.map fun f => .feed f.1 f.2)).2 := by
  induction feeds generalizing w times with
  | nil =>
    rw [List.flatMap_nil, Vblank.flipTimes_nil, List.append_nil]
    exact ⟨h, (List.append_nil _).symm⟩
  | cons f feeds ih =>
    obtain ⟨hs, ht⟩ := h.perform_feed hn (hf f List.mem_cons_self) f.2
    obtain ⟨hs', ht'⟩ := ih hs fun g hg => hf g (List.mem_cons_of_mem _ hg)
    rw [List.flatMap_cons, Vblank.flipTimes_append, ← List.append_assoc]
    refine ⟨hs', ?_⟩
    rw [ht', ht, List.append_assoc]
    rfl

/-- An operation that leaves nothing to do is over once it has begun. -/
theorem perform_of_nil {op : Op} {e : Effect} (he : w.begin 0 op = e) (ht : e.tasks = [])
    (hl : e.late = []) : (w.perform op).1 = e.wall ∧ (w.perform op).2.events = e.events := by
  have hbegin : w.resting.begin op = w.resting.incur e := congrArg _ he
  have hcall : w.resting.call op = w.resting.incur e := by
    rw [Run.call, hbegin, show (w.resting.incur e).tasks = [] from ht, Run.after_nil, ← ht]
    rfl
  have hrun : w.runOf op = w.resting.call op := runOf_eq_call (by rw [hcall]; exact hl)
  rw [perform, hrun, hcall]
  exact ⟨rfl, rfl⟩

theorem perform_eq_begin {op : Op} (ht : (w.begin 0 op).tasks = [])
    (hl : (w.begin 0 op).late = []) : (w.perform op).1 = (w.begin 0 op).wall :=
  (perform_of_nil rfl ht hl).1

/-- Once a listener is registered for vsync and vsync is enabled, a wall whose connected outputs
    have running loops with nothing left to read streams, whatever became of its cycle before. -/
theorem streaming_setup {c : Controller} (hc : w.controller = some c) (hheld : w.held = true)
    (hd : w.delivering = 0) (hv : c.vsyncEnabled = false)
    (hn : c.cycle.divisor = w.connectedCount)
    (hl : ∀ t ∈ w.tiles, t.output.connected = true →
      ∃ l, t.output.loop = some l ∧ l.running = true ∧ l.device.queued = [])
    (display : DisplayId) (tag : String) (limit : Nat) :
    (w.performAll [.listen .vsync display tag [] limit, .control true]).1.Streaming
      ⟨w.plugged, w.listeners.length, tag, display⟩ [] := by
  have hlisten : (w.perform (.listen .vsync display tag [] limit)).1 =
      { (w.setOutputs (·.register .vsync)).addListener { tag, script := [], left := limit } with
        controller := some (c.listenVsync w.listeners.length display) } := by
    rw [perform_eq_begin] <;> rw [begin, asHolder, hheld, hc] <;> rfl
  generalize hw' : (w.perform (.listen .vsync display tag [] limit)).1 = w' at hlisten
  have hheld' : w'.held = true := by rw [hlisten]; exact hheld
  have hc' : w'.controller = some (c.listenVsync w.listeners.length display) := by rw [hlisten]
  have hne : ¬ (c.listenVsync w.listeners.length display).vsyncEnabled = true := by
    rw [Controller.listenVsync, hv]
    exact Bool.false_ne_true
  have hcontrol : (w'.perform (.control true)).1 =
      { w'.setOutputs (·.control true) with
        controller := some ((c.listenVsync w.listeners.length display).control true) } := by
    rw [perform_eq_begin] <;> rw [begin, asHolder, hheld', hc'] <;> dsimp only <;>
      rw [control, if_neg hne]
  show (Wall.perform (Wall.perform w _).1 _).1.Streaming _ _
  rw [hw', hcontrol]
  have htiles : (w'.setOutputs (·.control true)).tiles = w.tiles.map fun t =>
      { t with output := (t.output.register .vsync).control true } := by
    rw [hlisten]
    simp [setOutputs, addListener, Function.comp_def]
  refine ⟨hheld', ?_, ?_, ?_, ?_, ?_⟩
  · rw [hlisten]
    exact hd
  · show List.map _ (w'.setOutputs (·.control true)).tiles = _
    rw [htiles, List.map_map]
    exact List.map_congr_left fun t _ => by simp
  · intro t ht hconn
    rw [htiles] at ht
    obtain ⟨t, hmem, rfl⟩ := List.mem_map.1 ht
    obtain ⟨l, hloop, hrun, hq⟩ := hl t hmem (by simpa using hconn)
    refine ⟨((l.register () ⟨t.output.pipe⟩).control true).1, ?_, .of_setup hrun hq⟩
    simp [Output.control, Output.register, Output.mapLoop, hloop]
  · refine ⟨⟨tag, [], limit⟩, ?_, rfl, rfl⟩
    show w'.listeners[w.listeners.length]? = _
    rw [hlisten]
    exact List.getElem?_concat_length
  · refine ⟨_, rfl, ?_⟩
    rw [Controller.control, if_neg hne]
    refine ⟨rfl, rfl, rfl, ?_⟩
    show c.cycle.restart = _
    rw [Vsync.Cycle.restart, hn, connectedCount_eq, Vsync.cycleAfter_nil]
    rfl

/-- On a wall that streams from an idle cycle on, readings of any bytes arrive at any connected
    outputs. With the times of all completed flips in them in the order in which they are handled,
    the listener is told one vsync for every `u.outputs` of the times: the saturating sum of these,
    divided by their number. Nothing else can be seen, and the cycle awaits what the last batch is
    short of. -/
theorem Streaming.feeds (h : w.Streaming u []) (hn : 0 < u.outputs)
    (feeds : List (Nat × List Vblank.Reading)) (hf : ∀ f ∈ feeds, u.plugged[f.1]? = some true) :
    let times := Vblank.flipTimes (feeds.flatMap (·.2))
    let r := w.performAll (feeds.map fun f => .feed f.1 f.2)
    r.2 = (List.range (times.length / u.outputs)).map (fun j =>
      .told u.listener u.tag u.display (.vsync ((Vsync.saturatingSum
        ((times.drop (j * u.outputs)).take u.outputs)).tdiv u.outputs))) ∧
    (∃ c, r.1.controller = some c ∧ c.cycle.awaited = u.outputs - times.length % u.outputs) ∧
    r.1.Streaming u times := by
  intro times r
  obtain ⟨hs, ht⟩ := h.performAll_feeds hn feeds hf
  rw [List.nil_append] at hs ht
  have hnil : u.told [] = [] := by
    rw [Upstream.told, Vsync.means, List.length_nil, Nat.zero_div]
    rfl
  rw [hnil, List.nil_append] at ht
  refine ⟨?_, ?_, hs⟩
  · show r.2 = _
    rw [← ht, Upstream.told, Vsync.means, List.map_map]
    rfl
  · obtain ⟨c, hc, -, -, -, hcycle⟩ := hs.controller
    refine ⟨c, hc, ?_⟩
    rw [hcycle]
    exact congrArg (u.outputs - ·) (Vsync.length_remainder times)

/-- Two outputs that own running loops, and nobody who listens yet. -/
def pair : Wall :=
  ((create [{ loop := some { pipe := 0 } }, { loop := some { pipe := 1 } }] {}).perform
    (.setPowerMode .on)).1

/-- A flip at some second. -/
def flipAt (seconds : UInt32) : Drm.Flip := ⟨0, seconds, 0, 0, 0⟩

/-- The second output has two flips, with a vblank between them, before the first one has one; a
    read that fails has none. -/
def pairFeeds : List (Nat × List Vblank.Reading) :=
  [(1, [.failure .interrupted, .drafts [.flipComplete (flipAt 3), .vblank (flipAt 4),
    .flipComplete (flipAt 5)]]), (0, [.drafts [.flipComplete (flipAt 6)]])]

theorem feeds_pair :
    let u : Upstream := ⟨[true, true], 0, "host", ⟨7⟩⟩
    let w := (pair.performAll [.listen .vsync ⟨7⟩ "host" [] 0, .control true]).1
    let r := w.performAll (pairFeeds.map fun f => .feed f.1 f.2)
    (w.Streaming u [] ∧ 0 < u.outputs ∧ ∀ f ∈ pairFeeds, u.plugged[f.1]? = some true) ∧
      r.2 = [.told 0 "host" ⟨7⟩ (.vsync 4000000000)] ∧
      ∃ c, r.1.controller = some c ∧ c.cycle.awaited = 1 := by
  intro u w r
  have hw : w.Streaming u [] := streaming_setup (w := pair) rfl rfl rfl rfl rfl (by decide) ⟨7⟩
    "host" 0
  have hf : ∀ f ∈ pairFeeds, u.plugged[f.1]? = some true := by decide
  have htimes : Vblank.flipTimes (pairFeeds.flatMap (·.2)) =
      [3000000000, 5000000000, 6000000000] := by
    show Vblank.flipTimes [_, _, _] = _
    rw [Vblank.flipTimes_cons, Vblank.flipTimes_cons, Vblank.flipTimes_cons]
    rw [Vblank.Reading.flips_drafts _ (by decide), Vblank.Reading.flips_drafts _ (by decide)]
    decide
  obtain ⟨hevents, ⟨c, hc, hawaited⟩, -⟩ := hw.feeds (by decide) pairFeeds hf
  rw [htimes] at hevents hawaited
  refine ⟨⟨hw, by decide, hf⟩, hevents.trans ?_, c, hc, hawaited.trans ?_⟩
  · have hn : u.outputs = 2 := by decide
    rw [hn]
    rfl
  · decide

end Wall

end VideoWall
