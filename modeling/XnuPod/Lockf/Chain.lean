import XnuPod.Kit.Intervals
import XnuPod.Lockf.Model

/-! The list of granted locks of a vnode.  `Chain v xs` says that the links lead from `v_lockf`
through the locks `xs`, and `entries` reads what they lock and for whom.  The lemmas say what the
writes of the code through a `struct lockf **` do to the list. -/

namespace XnuPod.Lockf

open List Function Kit.Links Kit.Intervals Vnode

def Lock.seg (l : Lock) : Seg LockType := ⟨l.lfStart, l.last, l.lfType⟩

def Lock.entry (l : Lock) : Id × Seg LockType := (l.lfId, l.seg)

namespace Vnode

def next (v : Vnode) (a : Addr) : Option Addr := (v.lock a).lfNext

def entries (v : Vnode) (xs : List Addr) : List (Id × Seg LockType) :=
  xs.map fun a => (v.lock a).entry

variable {v : Vnode} {a : Addr}

@[simp] theorem modify_self : (v.modify a f).lock a = f (v.lock a) := update_self _ _ _

@[simp] theorem modify_of_ne (h : b ≠ a) : (v.modify a f).lock b = v.lock b :=
  update_of_ne h _ _

@[simp] theorem modify_vLockf : (v.modify a f).vLockf = v.vLockf := rfl

@[simp] theorem modify_live : (v.modify a f).live = v.live := rfl

@[simp] theorem modify_fresh : (v.modify a f).fresh = v.fresh := rfl

@[simp] theorem modify_asleep : (v.modify a f).asleep = v.asleep := rfl

theorem next_modify (h : ∀ l, (f l).lfNext = l.lfNext) : (v.modify a f).next = v.next := by
  funext b
  by_cases hb : b = a
  · subst hb
    rw [next, modify_self, h]
    rfl
  · rw [next, modify_of_ne hb]
    rfl

theorem next_setNext (v : Vnode) (a : Addr) (p : Option Addr) :
    (v.setNext a p).next = update v.next a p := by
  funext b
  by_cases hb : b = a
  · subst hb
    rw [update_self]
    exact congrArg Lock.lfNext modify_self
  · rw [update_of_ne hb]
    exact congrArg Lock.lfNext (modify_of_ne hb)

theorem next_setStart (v : Vnode) (a : Addr) (x : Int) : (v.setStart a x).next = v.next :=
  next_modify fun _ => rfl

theorem next_setEnd (v : Vnode) (a : Addr) (x : Int) : (v.setEnd a x).next = v.next :=
  next_modify fun _ => rfl

theorem next_setType (v : Vnode) (a : Addr) (t : LockType) : (v.setType a t).next = v.next :=
  next_modify fun _ => rfl

theorem entry_setNext (v : Vnode) (a b : Addr) (p : Option Addr) :
    ((v.setNext a p).lock b).entry = (v.lock b).entry := by
  by_cases hb : b = a
  · subst hb
    rw [setNext, modify_self]
    rfl
  · exact congrArg Lock.entry (modify_of_ne hb)

theorem entry_write (v : Vnode) (slot : Slot) (b : Addr) (p : Option Addr) :
    ((v.write slot p).lock b).entry = (v.lock b).entry := by
  cases slot with
  | head => rfl
  | next a => exact entry_setNext v a b p

end Vnode

theorem lock_zalloc {v : Vnode} {a : Addr} {l : Lock} (ha : a ≠ v.fresh) :
    (v.zalloc l).lock a = v.lock a := update_of_ne ha _ _

theorem lock_zalloc_fresh {v : Vnode} {l : Lock} : (v.zalloc l).lock v.fresh = l :=
  update_self _ _ _

/-- The slot behind the locks `xs`, from a slot that leads to them. -/
def slotFrom (slot : Slot) (xs : List Addr) : Slot :=
  match xs.getLast? with
  | none => slot
  | some a => .next a

@[simp] theorem slotFrom_nil (slot : Slot) : slotFrom slot [] = slot := rfl

theorem slotFrom_concat (slot : Slot) (xs : List Addr) (a : Addr) :
    slotFrom slot (xs ++ [a]) = .next a := by
  rw [slotFrom, List.getLast?_concat]

theorem slotFrom_append (slot : Slot) (xs ys : List Addr) :
    slotFrom slot (xs ++ ys) = slotFrom (slotFrom slot xs) ys := by
  rcases eq_nil_or_concat ys with rfl | ⟨ys, a, rfl⟩
  · rw [append_nil, slotFrom_nil]
  · rw [concat_eq_append, ← append_assoc, slotFrom_concat, slotFrom_concat]

theorem slotFrom_cons (slot : Slot) (a : Addr) (xs : List Addr) :
    slotFrom slot (a :: xs) = slotFrom (.next a) xs := slotFrom_append slot [a] xs

structure Chain (v : Vnode) (xs : List Addr) : Prop where
  path : Path v.next v.vLockf xs none
  nodup : xs.Nodup
  live : ∀ a ∈ xs, v.live a = true

section Chain

theorem Chain.congr (h : Chain v xs) (hhead : v'.vLockf = v.vLockf)
    (hnext : ∀ a ∈ xs, v'.next a = v.next a) (hlive : ∀ a ∈ xs, v'.live a = v.live a) :
    Chain v' xs := by
  refine ⟨?_, h.nodup, fun a ha => (hlive a ha).trans (h.live a ha)⟩
  rw [hhead]
  exact h.path.congr hnext

theorem Chain.modify (h : Chain v xs) (hf : ∀ l, (f l).lfNext = l.lfNext) :
    Chain (v.modify a f) xs :=
  h.congr rfl (fun b _ => congrFun (next_modify hf) b) fun _ _ => rfl

theorem Chain.zfree (h : Chain v xs) (ha : a ∉ xs) : Chain (v.zfree a) xs :=
  h.congr rfl (fun _ _ => rfl) fun _ hb => update_of_ne (ne_of_mem_of_not_mem hb ha) _ _

theorem Chain.setNext (h : Chain v xs) (ha : a ∉ xs) : Chain (v.setNext a p) xs := by
  refine h.congr rfl (fun b hb => ?_) fun _ _ => rfl
  rw [next_setNext, update_of_ne (ne_of_mem_of_not_mem hb ha)]

theorem Chain.read_slot (h : Chain v (X ++ Y)) : v.read (slotFrom .head X) = Y.head? := by
  obtain ⟨p, hX, hY⟩ := path_append.mp h.path
  rw [← hY.head]
  rcases eq_nil_or_concat X with rfl | ⟨X, a, rfl⟩
  · exact hX
  · rw [concat_eq_append] at hX ⊢
    rw [slotFrom_concat]
    exact (path_concat.mp hX).2

theorem Chain.next_eq (h : Chain v (X ++ a :: Y)) : v.next a = Y.head? := by
  obtain ⟨-, -, -, hpath⟩ := path_append.mp h.path
  exact hpath.head

theorem Chain.write (h : Chain v (X ++ Y)) (hpath : Path v.next p Z none) (hnodup : (X ++ Z).Nodup)
    (hlive : ∀ a ∈ Z, v.live a = true) : Chain (v.write (slotFrom .head X) p) (X ++ Z) := by
  obtain ⟨q, hX, -⟩ := path_append.mp h.path
  have hall : ∀ a ∈ X ++ Z, v.live a = true := fun a ha =>
    (mem_append.mp ha).elim (fun hX => h.live a (mem_append_left _ hX)) (hlive a)
  rcases eq_nil_or_concat X with rfl | ⟨X, a, rfl⟩
  · exact ⟨hpath, hnodup, hall⟩
  rw [concat_eq_append] at hX hnodup hall ⊢
  rw [slotFrom_concat]
  have hXZ := nodup_append.mp hnodup
  have hXa := nodup_append.mp hXZ.1
  have haX : a ∉ X := fun ha => hXa.2.2 a ha a mem_cons_self rfl
  have haZ : a ∉ Z := fun ha =>
    hXZ.2.2 a (mem_append_right _ mem_cons_self) a ha rfl
  have hnext : (v.write (.next a) p).next = update v.next a p := next_setNext v a p
  refine ⟨path_append.mpr ⟨p, ?_, ?_⟩, hnodup, hall⟩
  · rw [hnext]
    exact hX.update_last haX
  · rw [hnext]
    exact hpath.update_of_notMem haZ

theorem Chain.delete (h : Chain v (X ++ a :: Y)) :
    Chain (v.write (slotFrom .head X) (v.next a)) (X ++ Y) := by
  obtain ⟨-, -, -, hY⟩ := path_append.mp h.path
  have hsub : (X ++ Y).Sublist (X ++ a :: Y) := (sublist_cons_self a Y).append_left X
  exact h.write hY (h.nodup.sublist hsub) fun b hb =>
    h.live b (mem_append_right _ (.tail _ hb))

theorem Chain.insert (h : Chain v (X ++ Y)) (ha : a ∉ X ++ Y) (hlive : v.live a = true) :
    Chain ((v.write (slotFrom .head X) (some a)).setNext a Y.head?) (X ++ a :: Y) := by
  obtain ⟨q, -, hY⟩ := path_append.mp h.path
  have haY : a ∉ Y := fun hmem => ha (mem_append_right _ hmem)
  have haX : a ∉ X := fun hmem => ha (mem_append_left _ hmem)
  -- Linking the new lock to the rest first is the same, and then the write extends the list.
  have hlinked : Chain (v.setNext a Y.head?) (X ++ Y) := h.setNext ha
  have hpath : Path (v.setNext a Y.head?).next (some a) (a :: Y) none := by
    refine ⟨rfl, ?_⟩
    rw [next_setNext, update_self, ← hY.head]
    exact hY.update_of_notMem haY
  have hnodup : (X ++ a :: Y).Nodup := nodup_middle.mpr (nodup_cons.mpr ⟨ha, h.nodup⟩)
  have hwrite := hlinked.write hpath hnodup fun b hb =>
    (mem_cons.mp hb).elim (fun hba => hba ▸ hlive) fun hbY =>
      h.live b (mem_append_right _ hbY)
  have hcomm : ((v.write (slotFrom .head X) (some a)).setNext a Y.head?) =
      (v.setNext a Y.head?).write (slotFrom .head X) (some a) := by
    rcases eq_nil_or_concat X with rfl | ⟨X, b, rfl⟩
    · rfl
    rw [concat_eq_append] at haX ⊢
    have hba : b ≠ a := fun hba => haX (hba ▸ mem_append_right _ mem_cons_self)
    rw [slotFrom_concat]
    simp only [Vnode.write, Vnode.setNext, Vnode.modify]
    rw [update_of_ne hba.symm, update_of_ne hba, update_comm hba]
  rw [hcomm]
  exact hwrite

theorem Chain.insert_after (h : Chain v (X ++ o :: Y)) (ha : a ∉ X ++ o :: Y)
    (hlive : v.live a = true) :
    Chain ((v.setNext a (v.next o)).setNext o (some a)) (X ++ o :: a :: Y) := by
  have hoa : o ≠ a := fun hoa => ha (hoa ▸ mem_append_right _ mem_cons_self)
  have hinsert : Chain ((v.write (slotFrom .head (X ++ [o])) (some a)).setNext a Y.head?)
      ((X ++ [o]) ++ a :: Y) := by
    apply Chain.insert _ _ hlive
    · rw [append_assoc]
      exact h
    · rw [append_assoc]
      exact ha
  rw [slotFrom_concat, ← h.next_eq, append_assoc] at hinsert
  have hcomm : (v.write (.next o) (some a)).setNext a (v.next o) =
      (v.setNext a (v.next o)).setNext o (some a) := by
    simp only [Vnode.write, Vnode.setNext, Vnode.modify]
    rw [update_of_ne hoa.symm, update_of_ne hoa, update_comm hoa]
  rw [← hcomm]
  exact hinsert

end Chain

end XnuPod.Lockf
