import GrNacl.EffectTrace
import Mathlib.Data.List.FinRange
import Mathlib.Data.List.Induction

/-! Loops `for (k = 0; k < n; k++)` whose counter has a largest value, and the
trajectory rule for them. A counter that is incremented past its largest value
ends the loop in a fault. -/
namespace CountedLoop
set_option autoImplicit false

open EffectTrace

variable {ε φ σ : Type}

/-- The largest value of a counter type; none when every bound is within reach. -/
abbrev Counter := Option ℕ

/-- The counter can take every value up to the bound n. -/
def Counter.Covers (c : Counter) (n : ℕ) : Prop := ∀ top, c = some top → n ≤ top

instance (c : Counter) (n : ℕ) : Decidable (c.Covers n) :=
  match c with
  | none => isTrue (fun _ h => nomatch h)
  | some top => decidable_of_iff (n ≤ top) ⟨fun h _ e => Option.some.inj e ▸ h, fun h => h top rfl⟩

@[simp] theorem covers_none (n : ℕ) : Counter.Covers none n := fun _ h => nomatch h

@[simp] theorem covers_some (top n : ℕ) : Counter.Covers (some top) n ↔ n ≤ top :=
  ⟨fun h => h top rfl, fun h _ e => Option.some.inj e ▸ h⟩

theorem Counter.Covers.mono {c : Counter} {m n : ℕ} (h : c.Covers n) (hmn : m ≤ n) : c.Covers m :=
  fun top htop => hmn.trans (h top htop)

/-- `left` more rounds, the counter standing at k. The increment after the round
at the largest value overflows. -/
def countFrom (c : Counter) (overflow : φ) (body : ℕ → σ → Run ε φ σ) : ℕ → ℕ → σ → Run ε φ σ
  | 0, _, s => pure s
  | left+1, k, s => do
    let s ← body k s
    if c = some k then Run.fail overflow else countFrom c overflow body left (k+1) s

def countUpTo (c : Counter) (overflow : φ) (n : ℕ) (s : σ) (body : ℕ → σ → Run ε φ σ) :
    Run ε φ σ :=
  countFrom c overflow body n 0 s

/-- The trajectory rule from any counter value: F k is the state before round k. -/
theorem countFrom_trajectory (c : Counter) (overflow : φ) (body : ℕ → σ → Run ε φ σ)
    (F : ℕ → σ) (left k : ℕ) (hk : c.Covers k)
    (hF : ∀ j, k ≤ j → j < k+left → body j (F j) = pure (F (j+1))) :
    countFrom c overflow body left k (F k) =
      if c.Covers (k+left) then pure (F (k+left)) else Run.fail overflow := by
  -- on the rounds left; that k itself is within reach is what the induction carries
  induction left generalizing k with
  | zero => simp only [countFrom, Nat.add_zero, hk, ↓reduceIte]
  | succ left ih =>
    rw [countFrom, hF k (Nat.le_refl k) (by omega), pure_bind]
    by_cases htop : c = some k
    · -- the increment after this round overflows, and k+1 was not covered
      rw [if_pos htop, if_neg]
      intro h
      have := h k htop
      omega
    · have hnext : c.Covers (k+1) := by
        intro top h
        have hle := hk top h
        have hne : top ≠ k := fun e => htop (e ▸ h)
        omega
      rw [if_neg htop, ih (k+1) hnext (fun j hj hlt => hF j (by omega) (by omega)),
        show k+1+left = k+(left+1) from by omega]

/-- The rule for a whole loop: it ends in F n when the counter covers the bound,
and in the overflow otherwise. -/
theorem countUpTo_trajectory (c : Counter) (overflow : φ) (body : ℕ → σ → Run ε φ σ)
    (F : ℕ → σ) (n : ℕ) (hF : ∀ j < n, body j (F j) = pure (F (j+1))) :
    countUpTo c overflow n (F 0) body =
      if c.Covers n then pure (F n) else Run.fail overflow := by
  have h := countFrom_trajectory c overflow body F n 0 (fun _ _ => Nat.zero_le _)
    (fun j _ hj => hF j (by omega))
  simpa only [countUpTo, Nat.zero_add] using h

/-- The rule for rounds that also log: E j is what round j logs. -/
theorem countFrom_trace (c : Counter) (overflow : φ) (body : ℕ → σ → Run ε φ σ)
    (F : ℕ → σ) (E : ℕ → List ε) (left k : ℕ) (hk : c.Covers (k+left))
    (hF : ∀ j, k ≤ j → j < k+left → body j (F j) = ⟨E j, .ok (F (j+1))⟩) :
    countFrom c overflow body left k (F k) =
      ⟨(List.range' k left).flatMap E, .ok (F (k+left))⟩ := by
  induction left generalizing k with
  | zero => rfl
  | succ left ih =>
    have hround := hF k (Nat.le_refl k) (by omega)
    have hok : (body k (F k)).result = .ok (F (k+1)) := by
      rw [hround]
    have htop : c ≠ some k := by
      intro h
      have := hk k h
      omega
    have hnext : c.Covers (k+1+left) := by
      rw [show k+1+left = k+(left+1) from by omega]
      exact hk
    rw [countFrom, Run.bind_of_ok hok, if_neg htop,
      ih (k+1) hnext (fun j hj hlt => hF j (by omega) (by omega)), hround, List.range'_succ,
      List.flatMap_cons, show k+1+left = k+(left+1) from by omega]

theorem countUpTo_trace (c : Counter) (overflow : φ) (body : ℕ → σ → Run ε φ σ)
    (F : ℕ → σ) (E : ℕ → List ε) (n : ℕ) (hn : c.Covers n)
    (hF : ∀ j < n, body j (F j) = ⟨E j, .ok (F (j+1))⟩) :
    countUpTo c overflow n (F 0) body = ⟨(List.range n).flatMap E, .ok (F n)⟩ := by
  have h := countFrom_trace c overflow body F E n 0 (by rwa [Nat.zero_add])
    (fun j _ hj => hF j (by omega))
  simpa only [countUpTo, Nat.zero_add, ← List.range_eq_range'] using h

/-- A loop whose round j fails ends with it, unless the counter overflows before. -/
theorem countFrom_fails (c : Counter) (overflow : φ) (body : ℕ → σ → Run ε φ σ) (F : ℕ → σ)
    (left k j : ℕ) (e : φ) (hk : c.Covers k) (hkj : k ≤ j) (hj : j < k+left)
    (hF : ∀ i, k ≤ i → i < j → body i (F i) = pure (F (i+1))) (he : body j (F j) = Run.fail e) :
    countFrom c overflow body left k (F k) =
      if c.Covers j then Run.fail e else Run.fail overflow := by
  induction left generalizing k with
  | zero => omega
  | succ left ih =>
    by_cases hkj' : k = j
    · subst hkj'
      rw [countFrom, he, Run.fail_bind, if_pos hk]
    · rw [countFrom, hF k (Nat.le_refl k) (by omega), pure_bind]
      by_cases htop : c = some k
      · -- the counter stops short of round j
        have hshort : ¬c.Covers j := fun h => by
          have := h k htop
          omega
        rw [if_pos htop, if_neg hshort]
      · have hnext : c.Covers (k+1) := by
          intro top h
          have hle := hk top h
          have hne : top ≠ k := fun e => htop (e ▸ h)
          omega
        rw [if_neg htop]
        exact ih (k+1) hnext (by omega) (by omega) (fun i hi hlt => hF i (by omega) hlt)

theorem countUpTo_fails (c : Counter) (overflow : φ) (body : ℕ → σ → Run ε φ σ) (F : ℕ → σ)
    (n j : ℕ) (e : φ) (hj : j < n) (hF : ∀ i < j, body i (F i) = pure (F (i+1)))
    (he : body j (F j) = Run.fail e) :
    countUpTo c overflow n (F 0) body = if c.Covers j then Run.fail e else Run.fail overflow := by
  apply countFrom_fails c overflow body F n 0 j e (fun _ _ => Nat.zero_le _) (Nat.zero_le j)
  · omega
  · exact fun i _ hi => hF i hi
  · exact he

/-- A loop that returns has returned from every one of its rounds. -/
theorem countFrom_rounds (c : Counter) (overflow : φ) (body : ℕ → σ → Run ε φ σ)
    (left k : ℕ) (s t : σ) (h : (countFrom c overflow body left k s).result = .ok t) :
    ∀ j, k ≤ j → j < k+left → ∃ u v, (body j u).result = .ok v := by
  induction left generalizing k s with
  | zero =>
    intro j hj hlt
    omega
  | succ left ih =>
    obtain ⟨v,hv,hrest⟩ := (Run.bind_result_ok_iff _ _ _).mp h
    intro j hj hlt
    by_cases hjk : j = k
    · exact ⟨s,v,hjk ▸ hv⟩
    · by_cases htop : c = some k
      · rw [if_pos htop] at hrest
        cases hrest
      · rw [if_neg htop] at hrest
        exact ih (k+1) v hrest j (by omega) (by omega)

theorem countUpTo_rounds (c : Counter) (overflow : φ) (n : ℕ) (s t : σ)
    (body : ℕ → σ → Run ε φ σ) (h : (countUpTo c overflow n s body).result = .ok t) :
    ∀ j < n, ∃ u v, (body j u).result = .ok v := by
  intro j hj
  exact countFrom_rounds c overflow body n 0 s t h j (Nat.zero_le j) (by omega)

/-- A loop that visits the positions of a list in order is a left fold. -/
theorem countUpTo_foldl {α : Type} (c : Counter) (overflow : φ) (xs : List α) (g : σ → α → σ)
    (s : σ) (body : ℕ → σ → Run ε φ σ)
    (hbody : ∀ (j : ℕ) (hj : j < xs.length) (t : σ), body j t = pure (g t xs[j])) :
    countUpTo c overflow xs.length s body =
      if c.Covers xs.length then pure (xs.foldl g s) else Run.fail overflow := by
  have h := countUpTo_trajectory c overflow body (fun j => (xs.take j).foldl g s) xs.length
    (fun j hj => by
      rw [hbody j hj]
      simp only [← List.take_append_getElem hj, List.foldl_append, List.foldl_cons,
        List.foldl_nil])
  simpa only [List.take_zero, List.foldl_nil, List.take_length] using h

/-- The last match of a list, as the fold of a loop that overwrites its
accumulator at every match. -/
theorem foldl_getD_eq_last {α β : Type} (f : α → Option β) (d : β) (xs : List α) :
    xs.foldl (fun acc x => (f x).getD acc) d = ((xs.filterMap f).getLast?).getD d := by
  induction xs using List.reverseRecOn with
  | nil => rfl
  | append_singleton xs x ih =>
    -- the last element overwrites, or leaves what the others gave
    rw [List.foldl_append, ih, List.filterMap_append, List.getLast?_append]
    cases h : f x <;> simp [h]

/-- A loop that overwrites the elements of a vector in place, index by index, maps it. -/
theorem foldl_set_eq_map {α : Type} {m : ℕ} (f : α → α) (v : Vector α m) :
    Fin.foldl m (fun (d : Vector α m) k => d.set k (f d[k])) v = v.map f := by
  -- after the indices ks exactly these positions are mapped
  have hvisited (ks : List (Fin m)) (hks : ks.Nodup) (w : Vector α m) (i : Fin m) :
      (ks.foldl (fun (d : Vector α m) (k : Fin m) => d.set k (f d[k])) w)[i] =
        if i ∈ ks then f w[i] else w[i] := by
    induction ks generalizing w with
    | nil => simp
    | cons k ks ih =>
      obtain ⟨hk, hnd⟩ := List.nodup_cons.mp hks
      rw [List.foldl_cons, ih hnd]
      by_cases hik : i = k
      · subst hik
        simp [hk]
      · have hother : (w.set k (f w[k]))[i] = w[i] :=
          Vector.getElem_set_ne _ _ (fun e => hik (Fin.ext e.symm))
        simp only [List.mem_cons, hik, false_or, hother]
  rw [Fin.foldl_eq_finRange_foldl]
  apply Vector.ext
  intro i hi
  have hall := hvisited (List.finRange m) (List.nodup_finRange m) v ⟨i,hi⟩
  simpa using hall

end CountedLoop
