import Mathlib.Logic.Basic

/-!
# Runs of a labelled step relation

A system has initial states and steps labelled by operations.  A run applies
operations one after the other, each of which meets a condition on the state it
starts from.  `Run.invariant` is the rule for properties of all states of such
runs.
-/

namespace Beellama.Verified

variable {σ ω : Type}

/-- The states of the runs from an initial state whose operations all meet `P`. -/
inductive Run (init : σ → Prop) (step : ω → σ → σ → Prop) (P : ω → σ → Prop) : σ → Prop
  | start {c : σ} (hInit : init c) : Run init step P c
  | step (op : ω) {c c' : σ} (hRun : Run init step P c) (hOp : P op c) (hStep : step op c c') :
      Run init step P c'

namespace Run

variable {init : σ → Prop} {step : ω → σ → σ → Prop} {P : ω → σ → Prop} {I : σ → Prop} {c : σ}

/-- What holds initially and is kept by every step holds in every state of a
run. -/
theorem invariant (h : Run init step P c) (hInit : ∀ c, init c → I c)
    (hStep : ∀ op c c', I c → P op c → step op c c' → I c') : I c := by
  induction h with
  | start hStart => exact hInit _ hStart
  | step op _ hOp hNext ih => exact hStep _ _ _ ih hOp hNext

theorem mono {Q : ω → σ → Prop} (h : Run init step P c) (hPQ : ∀ op c, P op c → Q op c) :
    Run init step Q c := by
  induction h with
  | start hInit => exact .start hInit
  | step op _ hOp hStep ih => exact .step op ih (hPQ _ _ hOp) hStep

/-- Steps that are executed, each from a state that passes a check. -/
theorem execChecked {exec : σ → ω → Option σ} {ok : σ → Bool} {ops : List ω} {c' : σ}
    (hRun : Run init (fun op c c' => exec c op = some c') P c)
    (hOps : ∀ op ∈ ops, ∀ c, ok c = true → P op c)
    (hExec : ops.foldlM (fun c op => if ok c then exec c op else none) c = some c') :
    Run init (fun op c c' => exec c op = some c') P c' := by
  induction ops generalizing c with
  | nil =>
    exact Option.some.inj hExec ▸ hRun
  | cons op rest ih =>
    obtain ⟨d, hHead, hTail⟩ := Option.bind_eq_some_iff.mp hExec
    obtain ⟨hOk, hNext⟩ := Option.ite_none_right_eq_some.mp hHead
    exact ih (.step op hRun (hOps op (by simp) c hOk) hNext)
      (fun op' hOp => hOps op' (List.mem_cons_of_mem _ hOp)) hTail

/-- Steps that are executed, with a condition that they always meet. -/
theorem execAll {exec : σ → ω → Option σ} {ops : List ω} {c' : σ}
    (hRun : Run init (fun op c c' => exec c op = some c') P c) (hOps : ∀ op ∈ ops, ∀ c, P op c)
    (hExec : ops.foldlM exec c = some c') : Run init (fun op c c' => exec c op = some c') P c' :=
  @execChecked _ _ init P c exec (fun _ => true) ops c' hRun (fun op hOp c _ => hOps op hOp c) hExec

end Run

end Beellama.Verified
