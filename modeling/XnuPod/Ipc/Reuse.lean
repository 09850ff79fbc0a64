import XnuPod.Ipc.NameTable

/-! How soon a name can come back.  A claim moves the generation of its entry up by one to four, and a
new round starts at 0 with another step.  So from a generation to the same one in a later round there
are at least 64 to go, whatever the steps are, and that takes sixteen claims. -/

namespace XnuPod.Ipc

open List Space

/-- Other calls than `ipc_entry_claim` and `ipc_entry_alloc_name` that leave the table where it is. -/
def Call.Plain : Call → Prop
  | .hash _ | .hold _ | .write _ _ _ _ | .dealloc _ => True
  | .claim _ | .allocName _ _ | .growTable _ _ => False

/-- The names that are claimed on the way from `v`, the last one first. -/
inductive History (c : Config) (v : System) : List UInt32 → System → Prop where
  | nil : History c v [] v
  | claim {claims w w' name} (object : Option Nat) : History c v claims w → w.Admits (.claim object) →
    w.step c (.claim object) = some w' → w'.handed = name :: w.handed → History c v (name :: claims) w'
  | other {claims w w'} (call : Call) : History c v claims w → call.Plain → w.Admits call →
    w.step c call = some w' → History c v claims w'

variable {c : Config} {v w w' : System} {claims : List UInt32} {name : UInt32} {L : List Nat}

def System.gen (u : System) (i : Nat) : Nat := generation (u.space.isTable.cell i).ieBits

def claimsOf (i : Nat) (claims : List UInt32) : Nat := claims.countP fun n => machPortIndex n = i

/-- What `n` claims can make of the generation `g₀`. -/
def Far (g₀ n g : Nat) : Prop :=
  n = 0 ∧ g = g₀ ∨ g₀ < g ∧ g ≤ g₀ + 4 * n ∨ 64 + g ≤ g₀ + 4 * n

theorem Far.advances (h : Far g₀ n g) (hadvances : Advances g g') : Far g₀ (n + 1) g' := by
  obtain ⟨d, hlow, hhigh, hstep⟩ := hadvances
  rw [Far] at *
  omega

theorem step_plain (hinv : Inv c w L) (hplain : call.Plain) (hc : w.Admits call)
    (hstep : w.step c call = some w') (i : Nat) : w'.gen i = w.gen i := by
  cases call with
  | hash hashed =>
    cases hstep
    rfl
  | hold entriesNeeded =>
    obtain ⟨kr, -, rfl⟩ := Option.map_eq_some_iff.mp hstep
    split_ifs <;> rfl
  | write name object right request =>
    rw [System.step, writeEntry, Table.modify_of_lt (hinv.named name hc).2.1] at hstep
    cases hstep
    show generation ((Table.put _ _ _).cell i).ieBits = _
    by_cases heq : i = machPortIndex name
    · rw [heq, Table.cell_put_self]
      exact generation_congr (write_and_gen _ _)
    · rw [Table.cell_put_of_ne heq]
      rfl
  | dealloc name =>
    obtain ⟨s', hcall, -, -, -, -, hgen⟩ := ipcEntryDealloc_spec rfl hinv.list
      (hinv.index_notMem hc.1) (hinv.named name hc.1).2.1 hc.2
    rw [System.step, hcall] at hstep
    cases hstep
    exact hgen i
  | claim | allocName | growTable => exact hplain.elim

theorem step_claim (hinv : Inv c w L) (hc : w.Admits (.claim object))
    (hstep : w.step c (.claim object) = some w') (hname : w'.handed = name :: w.handed) :
    0 < machPortIndex name ∧ (∀ i ≠ machPortIndex name, w'.gen i = w.gen i) ∧
      Advances (w.gen (machPortIndex name)) (w'.gen (machPortIndex name)) ∧
      w'.gen (machPortIndex name) = generation (machPortGen name) := by
  have hheld := hinv.held
  have hpos : 0 < w.held := hc
  cases L with
  | nil =>
    rw [length_nil] at hheld
    omega
  | cons i L =>
    obtain ⟨gen, s', hclaim, -, -, -, hcell, -, -, hbits, hadvances⟩ :=
      ipcEntryClaim_spec hinv.list object
    have hi := (hinv.mem i).mp mem_cons_self
    have hlt := hi.2.1.trans hinv.count_lt
    rw [System.step, hclaim] at hstep
    cases hstep
    obtain rfl := (cons.inj hname).1
    rw [machPortIndex_make hlt, machPortGen_make hlt (ieBitsGen_and_right gen), generation_ieBitsGen]
    have hgen : generation (s'.isTable.cell i).ieBits = generation gen := by
      rw [hcell]
    refine ⟨hi.1, fun j hj => congrArg generation (hbits j hj), ?_, hgen⟩
    rw [System.gen, System.gen, hgen]
    exact hadvances

theorem History.reaches (h : History c v claims w) (hv : System.Reaches c u v) :
    System.Reaches c u w := by
  induction h with
  | nil => exact hv
  | claim object _ hc hstep _ ih => exact ih.step _ hc hstep
  | other call _ _ hc hstep ih => exact ih.step _ hc hstep

section Created

variable {u : System} (hcreate : System.create c entropy = some u) (hv : System.Reaches c u v)
include hcreate hv

/-- The claims of a history, and how far they move the generation of an entry. -/
theorem History.far (h : History c v claims w) (i : Nat) :
    Far (v.gen i) (claimsOf i claims) (w.gen i) ∧ ∀ n ∈ claims, machPortIndex n ≠ 0 := by
  induction h with
  | nil => exact ⟨.inl ⟨rfl, rfl⟩, by simp⟩
  | @claim claims w w' name object h hc hstep hname ih =>
    obtain ⟨hfar, hindex⟩ := ih
    obtain ⟨L, hinv⟩ := (h.reaches hv).inv hcreate
    obtain ⟨hpos, hother, hadvances, -⟩ := step_claim hinv hc hstep hname
    refine ⟨?_, forall_mem_cons.mpr ⟨hpos.ne', hindex⟩⟩
    by_cases hi : machPortIndex name = i
    · rw [claimsOf, countP_cons_of_pos (by simpa using hi)]
      exact hfar.advances (hi ▸ hadvances)
    · rw [claimsOf, countP_cons_of_neg (by simpa using hi), hother i (Ne.symm hi)]
      exact hfar
  | other call h hplain hc hstep ih =>
    obtain ⟨L, hinv⟩ := (h.reaches hv).inv hcreate
    rw [step_plain hinv hplain hc hstep]
    exact ih

theorem History.late (h : History c v claims w)
    (hname : v.gen (machPortIndex name) = generation (machPortGen name))
    (hclaims : claims = pre ++ name :: rest) :
    16 ≤ claimsOf (machPortIndex name) (name :: rest) := by
  induction h generalizing pre with
  | nil => simp at hclaims
  | @claim claims w w' n object h hc hstep hnew ih =>
    cases pre with
    | nil =>
      obtain ⟨rfl, rfl⟩ := cons.inj hclaims
      obtain ⟨L, hinv⟩ := (h.reaches hv).inv hcreate
      obtain ⟨-, -, -, hgen⟩ := step_claim hinv hc hstep hnew
      have hfar := (History.far hcreate hv (h.claim object hc hstep hnew) (machPortIndex n)).1
      have hone : 0 < claimsOf (machPortIndex n) (n :: claims) := by
        simp [claimsOf]
      rw [Far] at hfar
      omega
    | cons a pre => exact ih (cons.inj hclaims).2
  | other call h hplain hc hstep ih => exact ih hclaims

end Created

/-- A name that was given back is not among the next fifteen claims of its index. -/
theorem names_not_reused {c : Config} {entropy : Entropy} {u v w : System} {claims : List UInt32}
    (hcreate : System.create c entropy = some u) (hv : System.Reaches c u v)
    (hhistory : History c v claims w) :
    (∀ n ∈ claims, n ≠ 0 ∧ machPortIndex n ≠ 0) ∧
      ∀ t name, System.Reaches c u t → t.Admits (.dealloc name) → t.step c (.dealloc name) = some v →
        ∀ pre rest, claims = pre ++ name :: rest → 16 ≤ claimsOf (machPortIndex name) (name :: rest) := by
  refine ⟨fun n hn => ?_, fun t name ht hc hstep pre rest hclaims => ?_⟩
  · have hindex := (hhistory.far hcreate hv 0).2 n hn
    refine ⟨?_, hindex⟩
    rintro rfl
    exact hindex rfl
  · obtain ⟨L, hinv⟩ := ht.inv hcreate
    refine hhistory.late hcreate hv ?_ hclaims
    have hplain : (Call.dealloc name).Plain := trivial
    rw [step_plain hinv hplain hc hstep, System.gen, ← generation_ieBitsGen, (hinv.named name hc.1).2.2]

/-- A name is claimed and given back, and the next claim gives the next generation. -/
theorem names_not_reused_next : ∃ u v w x y, System.create .large (fun _ => false) = some u ∧
    u.step .large (.hold 2) = some v ∧ v.step .large (.claim none) = some w ∧
    w.step .large (.dealloc 0x103) = some x ∧ x.step .large (.claim none) = some y ∧
    y.handed = [0x107] ∧ ∀ n ∈ [0x107], n ≠ 0 ∧ machPortIndex n ≠ 0 := by
  obtain ⟨u, v, w, x, y, hu, hv, hw, hx, hy, hheld, hname, hrequest, hheld', hhanded, hhanded'⟩ :
      ∃ u v w x y, System.create .large (fun _ => false) = some u ∧
        u.step .large (.hold 2) = some v ∧ v.step .large (.claim none) = some w ∧
        w.step .large (.dealloc 0x103) = some x ∧ x.step .large (.claim none) = some y ∧
        0 < v.held ∧ 0x103 ∈ w.handed ∧
        (w.space.isTable.cell (machPortIndex 0x103)).ieNext = ieReqNone ∧ 0 < x.held ∧
        x.handed = [] ∧ y.handed = [0x107] := by
    refine ⟨_, _, _, _, _, rfl, rfl, rfl, rfl, rfl, ?_⟩
    decide +kernel
  have hreaches : System.Reaches .large u x :=
    .step (.dealloc 0x103) (.step (.claim none) (.step (.hold 2) .refl trivial hv) hheld hw)
      ⟨hname, hrequest⟩ hx
  refine ⟨u, v, w, x, y, hu, hv, hw, hx, hy, hhanded', ?_⟩
  exact (names_not_reused hu hreaches
    (.claim none .nil hheld' hy (by rw [hhanded, hhanded']))).1

end XnuPod.Ipc
