import XnuPod.MpscRing.Invariant

/-! What the reader of the ring gets.  In a run whose holds are fresh and whose reads do not see the
head wrap around below the tail, the bytes that are read are the ones that were written, in the order
of the reservations.  A hold that is stored late can be behind the tail, and the reader then gets a
limit far beyond the head. -/

namespace XnuPod.MpscRing

open Kit Kit.Offsets

variable {c : Config} {s s' : System} {a : Action}

inductive Reaches (c : Config) (allowed : System → Action → Prop) : System → Prop
  | init : Reaches c allowed (.init c)
  | step {s s' : System} {a : Action} (h : Reaches c allowed s) (hallowed : allowed s a)
      (hstep : step c s a = some s') : Reaches c allowed s'

/-- The reader has no cursor beyond the head or above a byte that waits to be copied, and what it has
read is the beginning of what was written. -/
structure Sound (s : System) : Prop where
  limit_le_head : ∀ cursor, s.reader = .reading cursor →
    (cursor.limit - s.headTail.tail).toNat ≤ (s.headTail.head - s.headTail.tail).toNat
  complete : ∀ cursor, s.reader = .reading cursor → ∀ w headTail data,
    s.writers w = .reserved headTail data → ∀ i < data.length,
      (cursor.limit - s.headTail.tail).toNat ≤ (headTail.head + UInt32.ofNat i - s.headTail.tail).toNat
  order : s.delivered ++ s.got <+: s.log

/-- A writer that stores its hold stores the head, and not the mark of an empty hold. -/
def HoldFresh (s : System) : Writer → Prop
  | .loaded headTail _ => headTail.head = s.headTail.head ∧ headTail.head ≠ holdEmpty
  | _ => True

instance (s : System) : ∀ writer, Decidable (HoldFresh s writer)
  | .loaded headTail _ =>
    inferInstanceAs (Decidable (headTail.head = s.headTail.head ∧ headTail.head ≠ holdEmpty))
  | .idle | .held _ _ | .reserved _ _ | .leaving _ => inferInstanceAs (Decidable True)

/-- A hold is stored at the head, and a read does not see the offsets wrap around. -/
def Careful (s : System) : Action → Prop
  | .hold w => HoldFresh s (s.writers w)
  | .loadHold => s.headTail.tail ≤ s.headTail.head
  | _ => True

instance (s : System) : ∀ a, Decidable (Careful s a)
  | .hold w => inferInstanceAs (Decidable (HoldFresh s (s.writers w)))
  | .loadHold => inferInstanceAs (Decidable (s.headTail.tail ≤ s.headTail.head))
  | .write _ _ | .cmpxchg _ _ | .copy _ | .release _ | .readStart | .cursorAdvance _ | .cursorCommit
  | .readFinish | .readCancel => inferInstanceAs (Decidable True)

namespace Inv

section

variable (h : Inv c s)
include h

theorem hold (hw : w < c.writers) (hstate : s.writers w = .loaded headTail data)
    (hfresh : headTail.head = s.headTail.head) (hne : headTail.head ≠ holdEmpty) :
    Inv c (writeHold c s w headTail data) := by
  have hloaded := h.writer w
  rw [hstate] at hloaded
  have hquiet : Quiet (s.writers w) := by
    rw [hstate]
    trivial
  rw [writeHold]
  split_ifs with hcheck
  · exact h.setWriter hw hquiet trivial
  have hhold := h.setHold (w := w) (.inr hfresh) fun _ => by
    rw [hstate]
    exact hloaded
  refine hhold.setWriter hw hquiet ⟨hloaded, Function.update_self _ _ _, hne, ?_⟩
  rwa [ge_iff_le, UInt32.le_iff_toNat_le, Nat.not_le] at hcheck

theorem cmpxchg (hw : w < c.writers) (hstate : s.writers w = .held headTail data)
    (spurious : Bool) : Inv c (writeCmpxchg s w spurious headTail data) := by
  by_cases hexchange : s.headTail = headTail ∧ spurious = false
  · obtain ⟨rfl, rfl⟩ := hexchange
    exact h.reserve hw hstate
  have hheld := h.writer w
  rw [hstate] at hheld
  rw [writeCmpxchg, if_neg hexchange]
  refine h.setWriter hw ?_ hheld.1
  rw [hstate]
  trivial

theorem writerStep (hw : w < c.writers) (hwriter : a.writer = some w)
    (hcareful : Careful s a) (hstep : writerStep c s w a = some s') : Inv c s' := by
  unfold MpscRing.writerStep at hstep
  split at hstep
  case h_6 => cases hstep
  all_goals
    split at hstep
    case h_2 => cases hstep
    rename_i hstate
  · split_ifs at hstep with hdata
    cases hstep
    refine h.setWriter hw ?_ hdata
    rw [hstate]
    trivial
  · cases hstep
    cases hwriter
    rw [Careful, hstate] at hcareful
    obtain ⟨hfresh, hne⟩ := hcareful
    exact h.hold hw hstate hfresh hne
  · cases hstep
    exact h.cmpxchg hw hstate _
  · obtain ⟨buffer, hcopy, hinv⟩ := h.copy hw hstate
    rw [hcopy] at hstep
    cases hstep
    exact hinv
  · cases hstep
    have hquiet : Quiet (s.writers w) := by
      rw [hstate]
      trivial
    have hfree := h.setHold (w := w) (.inl rfl) fun _ => by
      rw [hstate]
      trivial
    exact hfree.setWriter hw hquiet trivial

theorem readerStep (hcareful : Careful s a) (hstep : readerStep c s a = some s') : Inv c s' := by
  have hreading := h.reader
  unfold MpscRing.readerStep at hstep
  split at hstep
  case h_7 => cases hstep
  all_goals
    split at hstep
    case h_2 => cases hstep
    rename_i hstate
    rw [hstate] at hreading
  · cases hstep
    exact h.readStart hstate
  · cases hstep
    exact h.readHold hcareful hstate
  · obtain ⟨t, hadvance, hinv⟩ := h.advance hstate _
    rw [hadvance] at hstep
    cases hstep
    exact hinv
  · cases hstep
    exact h.commit hstate
  · cases hstep
    obtain ⟨limit, -, -, hcommit, hle, hlimit⟩ := hreading
    rw [hcommit]
    exact h.stop hlimit h.committed hle
  · cases hstep
    obtain ⟨limit, -, -, -, hle, hlimit⟩ := hreading
    have hstop := h.stop hlimit List.nil_prefix hle
    rwa [List.length_nil, Nat.add_zero, ← h.tail, List.append_nil] at hstop

theorem step (hcareful : Careful s a) (hstep : step c s a = some s') : Inv c s' := by
  rw [MpscRing.step] at hstep
  cases hwriter : a.writer with
  | none =>
    simp only [hwriter] at hstep
    exact h.readerStep hcareful hstep
  | some w =>
    simp only [hwriter] at hstep
    split_ifs at hstep with hw
    exact h.writerStep hw hwriter hcareful hstep

theorem sound : Sound s := by
  have hroom := h.room
  have hcapacity := capacity_le c
  have hdistance : ∀ x, s.delivered.length ≤ x → x ≤ s.log.length →
      (UInt32.ofNat x - s.headTail.tail).toNat = x - s.delivered.length := by
    intro x hx hx'
    rw [h.tail]
    exact toNat_sub hx (by omega)
  have hreader : ∀ cursor, s.reader = .reading cursor →
      ∃ limit, cursor.limit = UInt32.ofNat limit ∧ s.Below limit c.writers := by
    intro cursor hstate
    have hreading := h.reader
    rw [hstate] at hreading
    obtain ⟨limit, heq, -, -, -, hlimit⟩ := hreading
    exact ⟨limit, heq, hlimit⟩
  refine ⟨fun cursor hstate => ?_, fun cursor hstate w headTail data hwriter i hi => ?_, h.order⟩
  · obtain ⟨limit, heq, hlimit⟩ := hreader cursor hstate
    rw [heq, h.head, hdistance _ hlimit.tail_le hlimit.le_head,
      hdistance _ h.tail_le_head (Nat.le_refl _)]
    exact Nat.sub_le_sub_right hlimit.le_head _
  obtain ⟨limit, heq, hlimit⟩ := hreader cursor hstate
  have hinv := h.writer w
  rw [hwriter] at hinv
  obtain ⟨-, -, -, b, hb, htail, hend, -⟩ := hinv
  have hge := h.limit_le hlimit hwriter hb htail (by omega)
  rw [heq, hb, ← UInt32.ofNat_add, hdistance _ hlimit.tail_le hlimit.le_head,
    hdistance _ (by omega) (by omega)]
  omega

end

end Inv

/-- In every careful run the reader gets complete data in order. -/
theorem ring_sound (h : Reaches c Careful s) : Sound s := by
  have hinv : Inv c s := by
    induction h with
    | init => exact inv_init c
    | step _ hcareful hstep ih => exact ih.step hcareful hstep
  exact hinv.sound

section Run

variable (c : Config) (allowed : System → Action → Prop) [∀ s a, Decidable (allowed s a)]

def run (s : System) (actions : List Action) : Option System :=
  actions.foldlM (fun s a => if allowed s a then step c s a else none) s

variable {c allowed}

theorem reaches_run (h : Reaches c allowed s) (hrun : run c allowed s actions = some s') :
    Reaches c allowed s' := by
  induction actions generalizing s with
  | nil =>
    cases hrun
    exact h
  | cons a actions ih =>
    rw [run, List.foldlM_cons] at hrun
    obtain ⟨t, hstep, hrest⟩ := Option.bind_eq_some_iff.mp hrun
    split_ifs at hstep with hallowed
    exact ih (h.step hallowed hstep) hrest

end Run

def Config.small : Config := ⟨4, 2, by decide, by decide, by decide⟩

/-- One writer has finished its data, and the other has still to copy them. -/
theorem ring_sound_small : ∃ s cursor, Reaches .small Careful s ∧ s.reader = .reading cursor ∧
    cursor.limit = 3 ∧ s.headTail = ⟨5, 0⟩ ∧ Sound s := by
  have hrun : (run .small Careful (.init .small) [.write 0 [1, 2, 3], .hold 0, .cmpxchg 0 false, .copy 0,
      .write 1 [4, 5], .hold 1, .cmpxchg 1 false, .release 0, .readStart, .loadHold, .loadHold]).map
      (fun s => (s.reader, s.headTail)) = some (.reading ⟨0, 0, 3⟩, ⟨5, 0⟩) := by
    decide +kernel
  obtain ⟨s, hs, hfacts⟩ := Option.map_eq_some_iff.mp hrun
  obtain ⟨hreader, hheadTail⟩ := Prod.mk.inj hfacts
  have hreach := reaches_run .init hs
  exact ⟨s, _, hreach, hreader, rfl, hheadTail, ring_sound hreach⟩

/-- Writer 0 loads the head, writer 1 writes four bytes, which are read, and writer 0 stores its hold
behind the tail.  The next cursor ends almost `2 ^ 32` bytes beyond the head. -/
theorem not_sound_stale : ∃ s cursor, Reaches .small (fun _ _ => True) s ∧
    s.reader = .reading cursor ∧ s.headTail = ⟨4, 4⟩ ∧ cursor.limit - s.headTail.tail = 0xfffffffc ∧
    ¬Sound s := by
  have hrun : (run .small (fun _ _ => True) (.init .small) [.write 0 [7], .write 1 [1, 2, 3, 4], .hold 1,
      .cmpxchg 1 false, .copy 1, .release 1, .readStart, .loadHold, .loadHold, .cursorAdvance 4,
      .cursorCommit, .readFinish, .hold 0, .readStart, .loadHold, .loadHold]).map
      (fun s => (s.reader, s.headTail)) = some (.reading ⟨4, 4, 0⟩, ⟨4, 4⟩) := by
    decide +kernel
  obtain ⟨s, hs, hfacts⟩ := Option.map_eq_some_iff.mp hrun
  obtain ⟨hreader, hheadTail⟩ := Prod.mk.inj hfacts
  refine ⟨s, _, reaches_run .init hs, hreader, hheadTail, by rw [hheadTail]; decide, fun hsound => ?_⟩
  have hle := hsound.limit_le_head _ hreader
  rw [hheadTail] at hle
  exact absurd hle (by decide)

end XnuPod.MpscRing
