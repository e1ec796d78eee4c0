import Mathlib.Logic.Function.Basic
import Mathlib.Data.List.Induction

/-! Stores whose values are replaced as a whole. After any sequence of writes a key holds the
last value written to it, or what it held before. -/
namespace LastWrite
set_option autoImplicit false

variable {κ ν : Type} [DecidableEq κ]

def put (s : κ → Option ν) (w : κ × ν) : κ → Option ν := Function.update s w.1 (some w.2)

def putAll (s : κ → Option ν) (ws : List (κ × ν)) : κ → Option ν := ws.foldl put s

/-- The last value written to the key. -/
def lastTo (k : κ) (ws : List (κ × ν)) : Option ν :=
  ((ws.filter (fun w => decide (w.1 = k))).getLast?).map Prod.snd

theorem putAll_append (s : κ → Option ν) (ws ws' : List (κ × ν)) :
    putAll s (ws ++ ws') = putAll (putAll s ws) ws' := List.foldl_append

theorem putAll_apply (s : κ → Option ν) (ws : List (κ × ν)) (k : κ) :
    putAll s ws k = (lastTo k ws).or (s k) := by
  induction ws using List.reverseRecOn with
  | nil => rfl
  | append_singleton ws w ih =>
    have hlast : lastTo k (ws ++ [w]) = if w.1 = k then some w.2 else lastTo k ws := by
      rw [lastTo, List.filter_append]
      by_cases hk : w.1 = k
      · simp [hk]
      · simp [hk, lastTo]
    rw [putAll_append, hlast]
    change Function.update (putAll s ws) w.1 (some w.2) k = _
    by_cases hk : w.1 = k
    · rw [if_pos hk, ← hk, Function.update_self, Option.some_or]
    · rw [if_neg hk, Function.update_of_ne (Ne.symm hk), ih]

/-- A key that is not written to any more keeps its last value. -/
theorem lastTo_append_of_untouched (k : κ) (ws ws' : List (κ × ν)) (h : ∀ w ∈ ws', w.1 ≠ k) :
    lastTo k (ws ++ ws') = lastTo k ws := by
  have hnone : ws'.filter (fun w => decide (w.1 = k)) = [] := by
    rw [List.filter_eq_nil_iff]
    intro w hw
    simp [h w hw]
  rw [lastTo, List.filter_append, hnone, List.append_nil, lastTo]

end LastWrite
