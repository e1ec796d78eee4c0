import GrNacl.MessageNetwork
import Mathlib.Algebra.BigOperators.Ring.Finset
import Mathlib.Algebra.Order.BigOperators.Group.Finset

/-! How long the traffic of a network of message handlers lasts. Where a message weighs more
than all that its handling posts, the load of the queues bounds what can still be handled. -/
namespace MessageNetwork
set_option autoImplicit false

variable {ι M : Type}

section Settling

variable [DecidableEq ι] [Fintype ι] {N : Network ι M} (weight : M → ℕ)

/-- The nodes a message published by node i goes to. -/
def fanout (N : Network ι M) (i : ι) : ℕ := (Finset.univ.filter (fun j => N.wired i j = true)).card

/-- The weight of all queues together. -/
def load (s : State ι M) : ℕ := ∑ i, ((s.queue i).map weight).sum

omit [DecidableEq ι] in
theorem load_post (s : State ι M) (dest : ι → Bool) (ms : List M) :
    load weight (s.post dest ms) = load weight s +
      (Finset.univ.filter (fun j => dest j = true)).card * (ms.map weight).sum := by
  have hqueue (j : ι) : (((s.post dest ms).queue j).map weight).sum =
      ((s.queue j).map weight).sum + if dest j = true then (ms.map weight).sum else 0 := by
    simp only [State.post]
    split <;> simp
  simp only [load, hqueue, Finset.sum_add_distrib, ← Finset.sum_filter, Finset.sum_const,
    nsmul_eq_mul, Nat.cast_id]

theorem load_take (s : State ι M) (i : ι) (m : M) (rest : List M) (o : Outcome M)
    (hqueue : s.queue i = m :: rest) :
    load weight (s.take i m rest o) + weight m = load weight s := by
  have hsplit (f : ι → ℕ) : ∑ j, f j = f i + ∑ j ∈ Finset.univ.erase i, f j :=
    (Finset.add_sum_erase _ f (Finset.mem_univ i)).symm
  -- only the queue of i is shorter
  have hother : ∑ j ∈ Finset.univ.erase i, (((s.take i m rest o).queue j).map weight).sum =
      ∑ j ∈ Finset.univ.erase i, ((s.queue j).map weight).sum := by
    apply Finset.sum_congr rfl
    intro j hj
    simp only [State.take, Function.update_of_ne (Finset.ne_of_mem_erase hj)]
  rw [load, load, hsplit, hsplit (fun j => ((s.queue j).map weight).sum), hother, hqueue]
  simp only [State.take, Function.update_self, List.map_cons, List.sum_cons]
  omega

/-- If a message weighs more than all that its handling posts, the load goes down with it. -/
theorem load_after (s : State ι M) (i : ι) (m : M) (rest : List M) (o : Outcome M)
    (hqueue : s.queue i = m :: rest)
    (hweight : 1+fanout N i*(o.published.map weight).sum ≤ weight m) :
    1+load weight (after N s i m rest o) ≤ load weight s := by
  have htake := load_take weight s i m rest o hqueue
  have hpost : load weight (after N s i m rest o) = load weight (s.take i m rest o) +
      fanout N i*(o.published.map weight).sum := load_post weight _ _ _
  omega

/-- Then the number of messages handled stays below the weight of what was injected. -/
theorem Run.handled_bounded {acts : List (Act ι M)} {s : State ι M} (h : Run N acts s)
    (hweight : ∀ i m o, N.handles i m o →
      1+fanout N i*(o.published.map weight).sum ≤ weight m) :
    (acts.filter Act.isHandle).length+load weight s ≤
      ((acts.filterMap Act.injected).map weight).sum := by
  induction h with
  | start => simp [load, State.start]
  | @step acts s t act hrun hstep ih =>
    cases hstep with
    | inject i m hi =>
      have hone : (Finset.univ.filter (fun j : ι => decide (j = i) = true)).card = 1 := by
        simp only [decide_eq_true_eq, Finset.filter_eq', Finset.mem_univ, ↓reduceIte,
          Finset.card_singleton]
      rw [load_post, hone]
      simp only [List.filter_append, List.filterMap_append, List.map_append, List.sum_append,
        List.length_append, Act.isHandle, Act.injected, List.filter_cons, List.filter_nil,
        List.filterMap_cons, List.filterMap_nil, List.map_cons, List.map_nil, List.sum_cons,
        List.sum_nil]
      simp only [Bool.false_eq_true, ↓reduceIte, List.length_nil]
      omega
    | handle i m rest o hlive hqueue ho =>
      have hdrop := load_after weight s i m rest o hqueue (hweight i m o ho)
      simp only [List.filter_append, List.filterMap_append, List.map_append, List.sum_append,
        List.length_append, Act.isHandle, Act.injected, List.filter_cons, List.filter_nil,
        List.filterMap_cons, List.filterMap_nil, List.map_nil, List.sum_nil]
      simp only [↓reduceIte, List.length_cons, List.length_nil]
      omega

/-- And where no node stops, every state leads on, by handling alone, to one with empty
queues. -/
theorem Run.drains {acts : List (Act ι M)} {s : State ι M} (h : Run N acts s)
    (hweight : ∀ i m o, N.handles i m o →
      1+fanout N i*(o.published.map weight).sum ≤ weight m)
    (htotal : ∀ i m, ∃ o, N.handles i m o)
    (hlive : ∀ acts s, Run N acts s → ∀ i, s.stopped i = false) :
    ∃ later t, (∀ a ∈ later, a.isHandle = true) ∧ Run N (acts ++ later) t ∧
      (∀ i, t.queue i = []) ∧ ∀ i, s.arrived i <+: t.arrived i := by
  -- on the load; as long as a queue has a head, that one can be handled
  induction hn : load weight s using Nat.strong_induction_on generalizing acts s with
  | _ n ih =>
    by_cases hempty : ∀ i, s.queue i = []
    · refine ⟨[],s,?_,?_,hempty,fun i => List.prefix_rfl⟩
      · exact fun a ha => absurd ha List.not_mem_nil
      · rw [List.append_nil]
        exact h
    · obtain ⟨i,hi⟩ := not_forall.mp hempty
      obtain ⟨m,rest,hqueue⟩ := List.exists_cons_of_ne_nil hi
      obtain ⟨o,ho⟩ := htotal i m
      have hstep : Step N s (.handle i) (after N s i m rest o) :=
        .handle i m rest o (hlive acts s h i) hqueue ho
      have hdrop := load_after weight s i m rest o hqueue (hweight i m o ho)
      obtain ⟨later,t,hhandles,hrun,hdone,hgrow⟩ :=
        ih (load weight (after N s i m rest o)) (by omega) (h.step hstep) rfl
      refine ⟨.handle i :: later,t,?_,?_,hdone,?_⟩
      · exact List.forall_mem_cons.mpr ⟨rfl,hhandles⟩
      · rw [List.append_cons]
        exact hrun
      · exact fun k => (hstep.arrived_grows k).trans (hgrow k)

/-- The most that a message can lead to which is passed on d times, to F nodes each time. -/
def hopWeight (F d : ℕ) : ℕ := ∑ k ∈ Finset.range (d+1), F^k

theorem hopWeight_succ (F d : ℕ) : hopWeight F (d+1) = 1+F*hopWeight F d := by
  rw [hopWeight, Finset.sum_range_succ', pow_zero, hopWeight, Finset.mul_sum, add_comm]
  congr 1
  apply Finset.sum_congr rfl
  intro k _
  rw [pow_succ, mul_comm]

theorem hopWeight_mono (F : ℕ) : Monotone (hopWeight F) := by
  intro d e hde
  apply Finset.sum_le_sum_of_subset
  exact Finset.range_subset_range.mpr (by omega)

theorem hopWeight_pos (F d : ℕ) : 1 ≤ hopWeight F d := by
  calc
    1 = hopWeight F 0 := by simp [hopWeight]
    _ ≤ hopWeight F d := hopWeight_mono F (Nat.zero_le d)

omit [DecidableEq ι] in
/-- Handlers that publish at most one message, and one nearer to its end, lower the weight. -/
theorem hopWeight_handled (depth : M → ℕ) (F : ℕ) (hF : ∀ i, fanout N i ≤ F)
    (hone : ∀ i m o, N.handles i m o → o.published.length ≤ 1)
    (hdepth : ∀ i m o, N.handles i m o → ∀ x ∈ o.published, depth x < depth m) (i : ι) (m : M)
    (o : Outcome M) (ho : N.handles i m o) :
    1+fanout N i*(o.published.map (fun m => hopWeight F (depth m))).sum ≤
      hopWeight F (depth m) := by
  cases hpub : o.published with
  | nil =>
    rw [List.map_nil, List.sum_nil, Nat.mul_zero]
    exact hopWeight_pos F (depth m)
  | cons x rest =>
    have hlen := hone i m o ho
    have hx := hdepth i m o ho x (by rw [hpub]; exact List.mem_cons_self)
    rw [hpub, List.length_cons] at hlen
    have hrest : rest = [] := List.length_eq_zero_iff.mp (by omega)
    subst hrest
    rw [List.map_singleton, List.sum_singleton]
    calc
      1+fanout N i*hopWeight F (depth x) ≤ 1+F*hopWeight F (depth x) :=
        Nat.add_le_add_left (Nat.mul_le_mul_right _ (hF i)) 1
      _ = hopWeight F (depth x+1) := (hopWeight_succ F (depth x)).symm
      _ ≤ hopWeight F (depth m) := hopWeight_mono F hx

end Settling

end MessageNetwork
