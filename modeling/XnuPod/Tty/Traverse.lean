import XnuPod.Tty.Fifo

/-! Traversals of two queues by `firstc` and `nextc`.  The number of characters that are left is kept in
the static variable `cc`, which both traversals write.  The second call of a traversal sets it again,
since its pointer is still at the first character; from then on it has to be left alone. -/

namespace XnuPod.Tty

open Kit Kit.Ring Clist

/-- What a call gives back: the static variable, and the pointer with the character stored, or `NULL`. -/
abbrev Next := Int × Option (Nat × Int)

def Clist.charAt (clp : Clist) (cp : Nat) : Option Int := do
  let cs ← clp.cCs
  let byte ← cs.get cp
  let quote ← clp.quoted cp
  some (charOf byte quote)

def firstc (clp : Clist) : Option Next :=
  if clp.cCc = 0 then some (0, none)
  else do
    let cf ← clp.cCf
    let c ← clp.charAt cf
    some (clp.cCc, some (cf, c))

def nextc (clp : Clist) (cc : Int) (cp : Option Nat) : Option Next :=
  let cc := if clp.cCf = cp then clp.cCc else cc
  match cp with
  | none => some (cc, none)
  | some cp =>
    if cc = 0 then some (cc, none)
    else if cc - 1 = 0 then some (0, none)
    else
      let cp := if cp + 1 = clp.cCe then 0 else cp + 1
      (clp.charAt cp).map fun c => (cc - 1, some (cp, c))

/-- The static variable, the pointer of each traversal that has begun, and what its calls have given. -/
structure Traversals where
  cc : Int
  cursor : Bool → Option (Option Nat)
  returned : Bool → List (Option Int)

def Traversals.step (clp : Bool → Clist) (s : Traversals) (t : Bool) : Option Traversals :=
  let next := match s.cursor t with
    | none => firstc (clp t)
    | some cp => nextc (clp t) s.cc cp
  next.map fun (cc, r) =>
    { cc
      cursor := Function.update s.cursor t (some (r.map Prod.fst))
      returned := Function.update s.returned t (s.returned t ++ [r.map Prod.snd]) }

/-- The calls in the order of `schedule`, from any value of the static variable. -/
def traverse (clp : Bool → Clist) (cc : Int) (schedule : List Bool) : Option Traversals :=
  schedule.foldlM (Traversals.step clp) ⟨cc, fun _ => none, fun _ => []⟩

structure Clist.Wf (clp : Clist) : Prop where
  nonneg : 0 ≤ clp.cCc
  ring : clp.cCc ≠ 0 → ∃ f cs, clp.cCf = some f ∧ clp.cCs = some cs ∧ f < clp.cCe ∧
    cs.size = clp.cCe ∧ clp.cCc ≤ clp.cCe
  quotes : ∀ cq, clp.cCq = some cq → cq.size = qmem clp.cCe

/-- What a traversal is to return: the characters of the queue, and then `NULL`. -/
def Clist.chars (clp : Clist) : List (Option Int) :=
  (clp.queue.map fun cell => some (charOf cell.1 cell.2)) ++ [none]

/-- Every call of a traversal but its first two directly follows a call of the same traversal. -/
def Undisturbed (schedule : List Bool) : Prop :=
  ∀ i < schedule.length, ∀ t, schedule[i]? = some t →
    (schedule.take i).count t ≤ 1 ∨ (schedule.take i).getLast? = some t

section Calls

variable {clp : Clist}

def Clist.cursorAt (clp : Clist) : Nat → Option (Option Nat)
  | 0 => none
  | n + 1 => some (clp.cCf.bind fun f => if n < clp.cCc.toNat then some ((f + n) % clp.cCe) else none)

theorem Clist.Wf.length_queue (h : clp.Wf) : clp.queue.length = clp.cCc.toNat := by
  by_cases hne : clp.cCc = 0
  · unfold queue
    split <;> simp [hne]
  · obtain ⟨f, cs, hf, hcs, -⟩ := h.ring hne
    simp [queue, hf, hcs]

theorem Clist.Wf.charAt (h : clp.Wf) (hn : n < clp.cCc.toNat) (hf : clp.cCf = some f) :
    ∃ c, clp.charAt ((f + n) % clp.cCe) = some c ∧ clp.chars[n]? = some (some c) := by
  obtain ⟨f', cs, hf', hcs, hlt, hsize, hle⟩ := h.ring (by omega)
  have hin : (f + n) % clp.cCe < clp.cCe := Nat.mod_lt _ (by omega)
  have hquoted : clp.quoted ((f + n) % clp.cCe) =
      some ((clp.cCq.map (quoteAt · ((f + n) % clp.cCe))).getD false) := by
    cases hcq : clp.cCq with
    | none => simp [quoted, hcq]
    | some cq =>
      simp only [quoted, hcq]
      exact isset_eq (h.quotes cq hcq ▸ byte_lt_qmem hin)
  refine ⟨charOf (cs.cell ((f + n) % clp.cCe))
    ((clp.cCq.map (quoteAt · ((f + n) % clp.cCe))).getD false), ?_, ?_⟩
  · have hget : cs.get ((f + n) % clp.cCe) = some (cs.cell ((f + n) % clp.cCe)) :=
      Block.get_of_lt (by rw [hsize]; exact hin)
    simp only [Clist.charAt, hcs, Option.bind_eq_bind, Option.bind_some, hget, hquoted]
  · rw [chars, List.getElem?_append_left (by rw [List.length_map, h.length_queue]; exact hn)]
    simp [queue, hf, hcs, window, hn]

theorem Clist.Wf.chars_end (h : clp.Wf) (hn : n = clp.cCc.toNat) : clp.chars[n]? = some none := by
  rw [chars]
  simp [h.length_queue, hn]

/-- A call that finds the number of characters that are left gives the next one. -/
theorem Clist.Wf.call (h : clp.Wf) (hn : n ≤ clp.cCc.toNat)
    (hcc : n ≤ 1 ∨ cc = clp.cCc - (n - 1 : Nat)) :
    ∃ r, (match clp.cursorAt n with
        | none => firstc clp
        | some cp => nextc clp cc cp) = some (clp.cCc - n, r) ∧
      some (r.map Prod.fst) = clp.cursorAt (n + 1) ∧ clp.chars[n]? = some (r.map Prod.snd) := by
  cases n with
  | zero =>
    by_cases hne : clp.cCc = 0
    · refine ⟨none, by simp [cursorAt, firstc, hne], ?_, h.chars_end (by simp [hne])⟩
      cases hf : clp.cCf <;> simp [cursorAt, hf, hne]
    obtain ⟨f, cs, hf, -, hlt, -⟩ := h.ring hne
    have hnonneg := h.nonneg
    have hpos : 0 < clp.cCc.toNat := by omega
    obtain ⟨c, hchar, hnext⟩ := h.charAt hpos hf
    rw [Nat.add_zero, Nat.mod_eq_of_lt hlt] at hchar
    refine ⟨some (f, c), ?_, ?_, hnext⟩
    · simp [cursorAt, firstc, hne, hf, hchar]
    · simp [cursorAt, hf, Nat.mod_eq_of_lt hlt, hpos]
  | succ n =>
    obtain ⟨f, cs, hf, -, hlt, -, hle⟩ := h.ring (by omega)
    have hcursor : clp.cursorAt (n + 1) = some (some ((f + n) % clp.cCe)) := by
      simp [cursorAt, hf, show n < clp.cCc.toNat by omega]
    -- The pointer is at the first character in the second call only.
    have hleft : (if clp.cCf = some ((f + n) % clp.cCe) then clp.cCc else cc) = clp.cCc - n := by
      rw [hf]
      cases n with
      | zero => simp [Nat.mod_eq_of_lt hlt]
      | succ n =>
        have hne : f % clp.cCe ≠ (f + (n + 1)) % clp.cCe := mod_ne_mod (by omega) (by omega)
        rw [Nat.mod_eq_of_lt hlt] at hne
        rw [if_neg (by simpa using hne)]
        simpa using hcc
    have hzero : ¬ clp.cCc - n = 0 := by omega
    rw [hcursor]
    simp only [nextc, hleft, if_neg hzero]
    by_cases hend : n + 1 = clp.cCc.toNat
    · have hone : clp.cCc - n - 1 = 0 := by omega
      refine ⟨none, ?_, by simp [cursorAt, hf, ← hend], h.chars_end hend⟩
      rw [if_pos hone]
      simp only [Option.some.injEq, Prod.mk.injEq, and_true]
      omega
    have hmore : ¬ clp.cCc - n - 1 = 0 := by omega
    have hnext : n + 1 < clp.cCc.toNat := by omega
    have hmod : (f + n) % clp.cCe < clp.cCe := Nat.mod_lt _ (by omega)
    obtain ⟨c, hchar, hchars⟩ := h.charAt hnext hf
    refine ⟨some ((f + (n + 1)) % clp.cCe, c), ?_, by simp [cursorAt, hf, hnext], hchars⟩
    rw [if_neg hmore, wrap_eq_mod (by omega), Nat.mod_add_mod, Nat.add_assoc, hchar]
    simp only [Option.map_some, Option.some.injEq, Prod.mk.injEq, and_true]
    omega

end Calls

/-- After the calls of an undisturbed schedule the pointers and the characters are right, and the
static variable is the one of the traversal that has made the last call. -/
theorem traverse_spec (hclp : ∀ t, (clp t).Wf) (cc : Int)
    (hschedule : Undisturbed schedule) (hends : ∀ t, schedule.count t ≤ (clp t).queue.length + 1) :
    ∃ s, traverse clp cc schedule = some s ∧
      (∀ t, s.cursor t = (clp t).cursorAt (schedule.count t) ∧
        s.returned t = (clp t).chars.take (schedule.count t)) ∧
      ∀ t, schedule.getLast? = some t → s.cc = (clp t).cCc - (schedule.count t - 1 : Nat) := by
  induction schedule using List.reverseRecOn with
  | nil => exact ⟨_, rfl, fun _ => ⟨rfl, rfl⟩, by simp⟩
  | append_singleton schedule t ih =>
    have hbefore : Undisturbed schedule := by
      intro i hi t' ht'
      have hi' := hschedule i (by simp; omega) t' (by rw [List.getElem?_append_left hi, ht'])
      rwa [List.take_append_of_le_length hi.le] at hi'
    have hcount : (schedule ++ [t]).count t = schedule.count t + 1 := by simp
    obtain ⟨s, hs, hdone, hlast⟩ := ih hbefore fun t' =>
      le_trans (List.Sublist.count_le t' (List.sublist_append_left _ _)) (hends t')
    have hcc : schedule.count t ≤ 1 ∨
        s.cc = (clp t).cCc - (schedule.count t - 1 : Nat) := by
      have hcall := hschedule schedule.length (by simp) t (by simp)
      rw [List.take_left] at hcall
      exact hcall.imp_right (hlast t)
    have hn : schedule.count t ≤ (clp t).cCc.toNat := by
      have hlen := hends t
      rw [(hclp t).length_queue, hcount] at hlen
      omega
    obtain ⟨r, hcall, hcursor, hchar⟩ := (hclp t).call hn hcc
    have hstep : traverse clp cc (schedule ++ [t]) = s.step clp t := by
      rw [traverse, List.foldlM_append, ← traverse, hs]
      simp
    rw [hstep, Traversals.step, (hdone t).1, hcall]
    refine ⟨_, rfl, fun t' => ?_, fun t' ht' => ?_⟩
    · by_cases htt : t' = t
      · subst htt
        simp only [Function.update_self, hcount, hcursor, true_and]
        rw [(hdone t').2, List.take_add_one, hchar]
        rfl
      simp only [Function.update_of_ne htt]
      have hsame : (schedule ++ [t]).count t' = schedule.count t' := by
        simp [Ne.symm htt]
      rw [hsame]
      exact hdone t'
    · obtain rfl : t = t' := by simpa using ht'
      rw [hcount]
      rfl

/-- In every undisturbed schedule of one traversal of each queue, each call returns the next character
of its own queue, or `NULL` behind the last one. -/
theorem traversals_undisturbed (clp : Bool → Clist) (hclp : ∀ t, (clp t).Wf) (cc : Int)
    (schedule : List Bool) (hschedule : Undisturbed schedule)
    (hends : ∀ t, schedule.count t ≤ (clp t).queue.length + 1) :
    ∃ s, traverse clp cc schedule = some s ∧
      ∀ t, s.returned t = (clp t).chars.take (schedule.count t) := by
  obtain ⟨s, hs, hdone, -⟩ := traverse_spec hclp cc hschedule hends
  exact ⟨s, hs, fun t => (hdone t).2⟩

/-- Three characters around the end of a ring of four, and a single one. -/
def twoQueues : Bool → Clist
  | true => ⟨3, 4, some 2, some 1, some ⟨4, fun i => UInt8.ofNat (0x61 + i)⟩, 4, none⟩
  | false => ⟨1, 4, some 0, some 1, some ⟨4, fun _ => 0x78⟩, 4, some ⟨1, fun _ => 1⟩⟩

theorem wf_twoQueues (t : Bool) : (twoQueues t).Wf := by
  cases t with
  | true => exact ⟨by decide, fun _ => ⟨2, _, rfl, rfl, by decide, rfl, by decide⟩, by simp [twoQueues]⟩
  | false =>
    refine ⟨by decide, fun _ => ⟨0, _, rfl, rfl, by decide, rfl, by decide⟩, fun cq hcq => ?_⟩
    cases hcq
    rfl

theorem traversals_undisturbed_two :
    ∃ s, traverse twoQueues 0 [true, false, true, true, true, false] = some s ∧ ∀ t, s.returned t =
        (twoQueues t).chars.take ([true, false, true, true, true, false].count t) :=
  traversals_undisturbed twoQueues wf_twoQueues 0 _ (by unfold Undisturbed; decide) (by decide)

/-- The other queue is entered after the second character, and the third one is not returned. -/
theorem not_traversed_disturbed :
    ∃ s, traverse twoQueues 0 [true, true, false, true] = some s ∧
      s.returned true ≠ (twoQueues true).chars.take 3 := by
  decide

end XnuPod.Tty
