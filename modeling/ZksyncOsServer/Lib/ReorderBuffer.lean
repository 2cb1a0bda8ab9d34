import ZksyncOsServer.Lib.SortedMap

/-!
# Reorder buffers

Items that cover contiguous ranges of numbers arrive in any order. They are kept under their first
number and released as soon as everything before them has been. What has been released is then the
longest initial run of the plan that has arrived.
-/
namespace ReorderBuffer

open List

variable {α : Type} (first count : α → Nat)

structure Buffer (α : Type) where
  items : Std.ExtTreeMap Nat α compare
  next : Nat

/-- Takes items off as long as the next one is there. -/
def drain : Nat → Buffer α → List α × Buffer α
  | 0, this => ([], this)
  | fuel + 1, this =>
    match this.items[this.next]? with
    | none => ([], this)
    | some a =>
      let (ready, rest) := drain fuel ⟨this.items.erase this.next, this.next + count a⟩
      (a :: ready, rest)

/-- An item arrives; returns those that are released. -/
def push (this : Buffer α) (a : α) : List α × Buffer α :=
  let items := this.items.insert (first a) a
  drain count items.size ⟨items, this.next⟩

/-- The items cover the numbers from `next` on without gap. -/
def Contiguous : Nat → List α → Prop
  | _, [] => True
  | next, a :: as => first a = next ∧ 0 < count a ∧ Contiguous (next + count a) as

def decidableContiguous : (next : Nat) → (plan : List α) → Decidable (Contiguous first count next plan)
  | _, [] => inferInstanceAs (Decidable True)
  | next, a :: as =>
    have := decidableContiguous (next + count a) as
    inferInstanceAs (Decidable (_ ∧ _ ∧ _))

instance (next : Nat) (plan : List α) : Decidable (Contiguous first count next plan) :=
  decidableContiguous first count next plan

variable {first count} {next : Nat} {plan rest arrived : List α} {a b : α} {this : Buffer α}

section
variable (h : Contiguous first count next plan)
include h

theorem Contiguous.le_first (ha : a ∈ plan) : next ≤ first a := by
  induction plan generalizing next with
  | nil => exact nomatch ha
  | cons b bs ih =>
    obtain ⟨hfirst, -, hrest⟩ := h
    rcases mem_cons.mp ha with rfl | ha
    · exact hfirst.ge
    · exact (Nat.le_add_right _ _).trans (ih hrest ha)

theorem Contiguous.eq_of_first (ha : a ∈ plan) (hb : b ∈ plan) (hab : first a = first b) : a = b := by
  induction plan generalizing next with
  | nil => exact nomatch ha
  | cons c cs ih =>
    obtain ⟨hfirst, hpos, hrest⟩ := h
    rcases mem_cons.mp ha with rfl | ha' <;> rcases mem_cons.mp hb with rfl | hb'
    · rfl
    · have := hrest.le_first hb'
      omega
    · have := hrest.le_first ha'
      omega
    · exact ih hrest ha' hb'

theorem Contiguous.pairwise : plan.Pairwise fun a b => first a < first b := by
  induction plan generalizing next with
  | nil => exact .nil
  | cons a as ih =>
    obtain ⟨hfirst, hpos, hrest⟩ := h
    refine pairwise_cons.mpr ⟨fun b hb => ?_, ih hrest⟩
    have := hrest.le_first hb
    omega

theorem Contiguous.nodup : plan.Nodup := by
  refine h.pairwise.imp fun {a b} hlt hab => ?_
  rw [hab] at hlt
  exact lt_irrefl _ hlt

theorem Contiguous.nodup_of_subperm (hsub : arrived.Subperm plan) : arrived.Nodup := by
  obtain ⟨l, hperm, hsublist⟩ := hsub
  exact hperm.nodup_iff.mp (h.nodup.sublist hsublist)

theorem Contiguous.new_of_subperm (hsub : (arrived ++ a :: rest).Subperm plan) : a ∈ plan ∧ a ∉ arrived := by
  have hnodup := h.nodup_of_subperm hsub
  exact ⟨hsub.subset (by simp), fun ha => (nodup_append.mp hnodup).2.2 a ha a mem_cons_self rfl⟩

/-- What every arrival of a further item of the plan keeps holds after arrivals of its items in any order. -/
theorem Contiguous.foldl_arrivals {σ ε : Type} {item : ε → α} {step : σ → ε → σ} {I : List α → σ → Prop}
    {Q : σ → Prop} {G : ε → Prop} {s : σ} {es : List ε}
    (hstep : ∀ {arrived s e}, I arrived s → item e ∈ plan → item e ∉ arrived →
      I (arrived ++ [item e]) (step s e) ∧ (G e → Q s → Q (step s e)))
    (hs : I arrived s) (hsub : (arrived ++ es.map item).Subperm plan) :
    I (arrived ++ es.map item) (es.foldl step s) ∧ ((∀ e ∈ es, G e) → Q s → Q (es.foldl step s)) := by
  induction es generalizing arrived s with
  | nil => exact ⟨by simpa using hs, fun _ => id⟩
  | cons e es ih =>
    obtain ⟨hmem, hnew⟩ := h.new_of_subperm hsub
    obtain ⟨hkept, hgood⟩ := hstep hs hmem hnew
    obtain ⟨hinv, hrun⟩ := ih hkept (by simpa using hsub)
    refine ⟨by simpa using hinv, fun hall hQ => ?_⟩
    exact hrun (fun e' he' => hall e' (mem_cons_of_mem e he')) (hgood (hall e mem_cons_self) hQ)

end

structure Holds (first count : α → Nat) (rest arrived : List α) (this : Buffer α) : Prop where
  contiguous : Contiguous first count this.next rest
  items : ∀ n a, this.items[n]? = some a ↔ a ∈ rest ∧ a ∈ arrived ∧ first a = n

theorem Holds.start (h : Contiguous first count next plan) : Holds first count plan [] ⟨∅, next⟩ :=
  ⟨h, fun n a => by simp⟩

theorem Holds.tail (h : Holds first count (a :: rest) arrived this) :
    Holds first count rest arrived ⟨this.items.erase this.next, this.next + count a⟩ := by
  obtain ⟨hfirst, hpos, hrest⟩ := h.contiguous
  refine ⟨hrest, fun n b => ?_⟩
  rw [SortedMap.getElem?_erase]
  split
  next hn =>
    refine ⟨nofun, fun ⟨hb, _, hbn⟩ => ?_⟩
    have := hrest.le_first hb
    omega
  next hn =>
    rw [h.items n b, mem_cons]
    constructor
    · rintro ⟨rfl | hb, harrived, hbn⟩
      · exact absurd (hbn.symm.trans hfirst) hn
      · exact ⟨hb, harrived, hbn⟩
    · rintro ⟨hb, harrived, hbn⟩
      exact ⟨.inr hb, harrived, hbn⟩

section Decidable
variable [DecidableEq α]

def run (plan arrived : List α) : List α := plan.takeWhile (· ∈ arrived)

def afterRun (plan arrived : List α) : List α := plan.dropWhile (· ∈ arrived)

/-- Draining releases the longest initial run of the rest. -/
theorem drain_spec {fuel : Nat} (h : Holds first count rest arrived this) (hfuel : this.items.size ≤ fuel) :
    (drain count fuel this).1 = run rest arrived ∧
      Holds first count (afterRun rest arrived) arrived (drain count fuel this).2 := by
  induction fuel generalizing rest this with
  | zero =>
    have hempty : this.items.isEmpty = true := by
      rw [Std.ExtTreeMap.isEmpty_iff, Std.ExtTreeMap.eq_empty_iff_size_eq_zero]
      omega
    rw [SortedMap.isEmpty_iff] at hempty
    cases rest with
    | nil => exact ⟨rfl, h⟩
    | cons a rest =>
      have hnot : a ∉ arrived := fun ha => hempty (first a) a ((h.items _ a).mpr ⟨mem_cons_self, ha, rfl⟩)
      simpa [run, afterRun, drain, hnot] using h
  | succ fuel ih =>
    rw [drain]
    cases rest with
    | nil =>
      have hnone : this.items[this.next]? = none := by
        rw [Option.eq_none_iff_forall_not_mem]
        exact fun a ha => nomatch ((h.items _ a).mp ha).1
      rw [hnone]
      exact ⟨rfl, h⟩
    | cons a rest =>
      have hfirst := h.contiguous.1
      by_cases harrived : a ∈ arrived
      · have hsome : this.items[this.next]? = some a := (h.items _ a).mpr ⟨mem_cons_self, harrived, hfirst⟩
        have hsize : (this.items.erase this.next).size ≤ fuel := by
          have hmem : this.items.contains this.next = true := by
            rw [Std.ExtTreeMap.contains_iff_mem, Std.ExtTreeMap.mem_iff_isSome_getElem?, hsome]
            rfl
          rw [Std.ExtTreeMap.size_erase, if_pos hmem]
          omega
        obtain ⟨hready, hholds⟩ := ih h.tail hsize
        rw [hsome]
        refine ⟨?_, ?_⟩
        · simpa [run, harrived] using hready
        · simpa [afterRun, harrived] using hholds
      · have hnone : this.items[this.next]? = none := by
          rw [Option.eq_none_iff_forall_not_mem]
          intro b hb
          obtain ⟨hb, hbarrived, hbn⟩ := (h.items _ b).mp hb
          rw [h.contiguous.eq_of_first hb mem_cons_self (hbn.trans hfirst.symm)] at hbarrived
          exact harrived hbarrived
        rw [hnone]
        simpa [run, afterRun, harrived] using h

theorem run_append (plan arrived : List α) (a : α) :
    run plan (arrived ++ [a]) = run plan arrived ++ run (afterRun plan arrived) (arrived ++ [a]) := by
  induction plan with
  | nil => rfl
  | cons b bs ih =>
    by_cases hb : b ∈ arrived
    · have hb' : b ∈ arrived ++ [a] := mem_append_left _ hb
      simpa only [run, afterRun, takeWhile_cons, dropWhile_cons, hb, hb', decide_true, if_true,
        cons_append, cons.injEq, true_and] using ih
    · simp [run, afterRun, hb]

theorem afterRun_append (plan arrived : List α) (a : α) :
    afterRun plan (arrived ++ [a]) = afterRun (afterRun plan arrived) (arrived ++ [a]) := by
  induction plan with
  | nil => rfl
  | cons b bs ih =>
    by_cases hb : b ∈ arrived
    · have hb' : b ∈ arrived ++ [a] := mem_append_left _ hb
      simpa only [afterRun, dropWhile_cons, hb, hb', decide_true, if_true] using ih
    · simp [afterRun, hb]

theorem run_append_afterRun (plan arrived : List α) : run plan arrived ++ afterRun plan arrived = plan :=
  takeWhile_append_dropWhile

theorem mem_arrived_of_mem_run (h : a ∈ run plan arrived) : a ∈ arrived := by
  simpa using mem_takeWhile_imp h

/-- Every arrival extends what was released to the longest initial run. -/
theorem push_spec (h : Holds first count (afterRun plan arrived) arrived this) (ha : a ∈ plan) (hnew : a ∉ arrived) :
    run plan arrived ++ (push first count this a).1 = run plan (arrived ++ [a]) ∧
      Holds first count (afterRun plan (arrived ++ [a])) (arrived ++ [a]) (push first count this a).2 := by
  have hrest : a ∈ afterRun plan arrived := by
    rw [← run_append_afterRun plan arrived] at ha
    exact (mem_append.mp ha).resolve_left fun hrun => hnew (mem_arrived_of_mem_run hrun)
  have hinsert : Holds first count (afterRun plan arrived) (arrived ++ [a]) ⟨this.items.insert (first a) a, this.next⟩ := by
    refine ⟨h.contiguous, fun n b => ?_⟩
    rw [SortedMap.getElem?_insert]
    split
    next hn =>
      constructor
      · rintro ⟨⟩
        exact ⟨hrest, by simp, hn.symm⟩
      · rintro ⟨hb, -, hbn⟩
        rw [h.contiguous.eq_of_first hb hrest (hbn.trans hn)]
    next hn =>
      rw [h.items n b]
      constructor
      · rintro ⟨hb, harrived, hbn⟩
        exact ⟨hb, mem_append_left _ harrived, hbn⟩
      · rintro ⟨hb, harrived, hbn⟩
        rcases mem_append.mp harrived with harrived | hself
        · exact ⟨hb, harrived, hbn⟩
        · rw [mem_singleton.mp hself] at hbn
          exact absurd hbn.symm hn
  obtain ⟨hready, hholds⟩ := drain_spec hinsert le_rfl
  rw [push, hready, ← run_append, afterRun_append]
  exact ⟨rfl, hholds⟩

/-- What was passed on of the released items: all of them, and a part of them once that has failed. -/
structure Released (first count : α → Nat) (plan arrived output : List α) (failed : Bool) (this : Buffer α) : Prop where
  part : output <+: run plan arrived
  complete : failed = false → output = run plan arrived
  held : failed = false → Holds first count (afterRun plan arrived) arrived this

namespace Released

variable {output sent : List α} {failed : Bool}

theorem start (h : Contiguous first count next plan) : Released first count plan [] [] false ⟨∅, next⟩ := by
  have hrun : run plan [] = [] := by cases plan <;> rfl
  have hafter : afterRun plan [] = plan := by cases plan <;> rfl
  exact ⟨List.nil_prefix, fun _ => hrun.symm, fun _ => hafter.symm ▸ Holds.start h⟩

theorem stopped (h : Released first count plan arrived output true this) (a : α) :
    Released first count plan (arrived ++ [a]) output true this := by
  refine ⟨h.part.trans ?_, nofun, nofun⟩
  rw [run_append]
  exact prefix_append _ _

theorem push (h : Released first count plan arrived output false this) (ha : a ∈ plan) (hnew : a ∉ arrived)
    (hpart : sent <+: (push first count this a).1) (hcomplete : failed = false → sent = (push first count this a).1) :
    Released first count plan (arrived ++ [a]) (output ++ sent) failed (ReorderBuffer.push first count this a).2 := by
  obtain ⟨hready, hheld⟩ := push_spec (h.held rfl) ha hnew
  rw [h.complete rfl]
  refine ⟨?_, fun hok => ?_, fun _ => hheld⟩
  · rw [← hready]
    exact (prefix_append_right_inj _).mpr hpart
  · rw [hcomplete hok, hready]

theorem ordered (hplan : Contiguous first count next plan) (h : Released first count plan arrived output failed this) :
    output.Pairwise fun a b => first a < first b :=
  (hplan.pairwise.sublist (takeWhile_sublist _)).sublist h.part.sublist

end Released

end Decidable

end ReorderBuffer
