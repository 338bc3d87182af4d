import Mathlib.Data.List.Flatten
import Mathlib.Data.List.Perm.Subperm

/-!
# Lists of places

Every element of a list holds some items.  When one element is replaced, the
list gives or receives what that element gives or receives.
-/

namespace Beellama.Verified

open List

variable {α β : Type} {l : List α} {i : Nat} {x y : α} {f : α → List β}

theorem flatMap_perm_eraseIdx (hAt : l[i]? = some x) :
    (l.flatMap f).Perm (f x ++ (l.eraseIdx i).flatMap f) := by
  obtain ⟨hLt, rfl⟩ := List.getElem?_eq_some_iff.mp hAt
  have hPerm := (getElem_cons_eraseIdx_perm hLt).symm.flatMap_right f
  rwa [flatMap_cons] at hPerm

theorem flatMap_set_perm_eraseIdx (hLt : i < l.length) (y : α) :
    ((l.set i y).flatMap f).Perm (f y ++ (l.eraseIdx i).flatMap f) := by
  have hPerm := (set_perm_cons_eraseIdx hLt y).flatMap_right f
  rwa [flatMap_cons] at hPerm

/-- What a place gives away leaves the list. -/
theorem flatMap_set_given {given : List β} (hAt : l[i]? = some x)
    (hGiven : (f x).Perm (given ++ f y)) :
    (l.flatMap f).Perm (given ++ (l.set i y).flatMap f) := by
  have hLt : i < l.length := (List.getElem?_eq_some_iff.mp hAt).1
  have hSet := (flatMap_set_perm_eraseIdx (f := f) hLt y).symm
  refine (flatMap_perm_eraseIdx hAt).trans ((hGiven.append_right _).trans ?_)
  rw [append_assoc]
  exact hSet.append_left given

/-- What a place receives comes into the list. -/
theorem flatMap_set_received {received : List β} (hAt : l[i]? = some x)
    (hReceived : (f y).Perm (received ++ f x)) :
    ((l.set i y).flatMap f).Perm (received ++ l.flatMap f) := by
  have hLt : i < l.length := (List.getElem?_eq_some_iff.mp hAt).1
  refine (flatMap_set_perm_eraseIdx hLt y).trans ((hReceived.append_right _).trans ?_)
  rw [append_assoc]
  exact (flatMap_perm_eraseIdx hAt).symm.append_left received

theorem flatMap_set_subperm (hLt : i < l.length) (y : α) :
    ((l.set i y).flatMap f).Subperm (f y ++ l.flatMap f) := by
  have hOthers : ((l.eraseIdx i).flatMap f).Subperm (l.flatMap f) :=
    ((eraseIdx_sublist l i).flatMap f).subperm
  exact (flatMap_set_perm_eraseIdx hLt y).subperm.trans ((List.Subperm.refl _).append hOthers)

end Beellama.Verified
