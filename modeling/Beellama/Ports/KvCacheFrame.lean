import Beellama.Ports.KvCacheCells
import Beellama.Ports.KvCacheSlots
import Beellama.Verified.Sweep

/-!
# What the methods of the KV cache keep

A property that no change outside of the cell tables touches (`Framed`) is kept by a method, returned
or thrown, when the changes that the method makes to the tables keep it.
-/

namespace Beellama.Ports

open Beellama.Verified

namespace KvCache

/-- A property that changes of other fields keep, and actions of the exact tail. -/
class Framed (P : KvCache → Prop) : Prop where
  congr {c c' : KvCache} : P c → c'.cfg = c.cfg → c'.cells = c.cells → c'.tail = c.tail → P c'
  act {c : KvCache} {t t' : TailStore} : c.tail = some t → P c → P { c with tail := some t' }

/-- Returned or thrown, the method keeps `P`. -/
abbrev Keeps (P : KvCache → Prop) {α : Type} (x : CacheM α) : Prop :=
  Triple P x (fun _ => P) fun _ => P

variable {P Q : KvCache → Prop} {α : Type} {q p0 p1 : Int} {f : KvCache → KvCache}

theorem keeps_get {f : KvCache → CacheM α} {R : α → KvCache → Prop}
    {E : CacheError → KvCache → Prop} (hf : ∀ c, P c → Triple P (f c) R E) :
    Triple P (MonadState.get >>= f) R E := Triple.get fun c hc s hs => hf c hc s (hs ▸ hc)

theorem keeps_assert {p : Prop} [Decidable p] {f : Unit → CacheM α}
    (hf : p → Triple P (f ()) (fun _ => Q) fun _ => Q)
    (h : ∀ c, P c → Q c := by exact fun _ h => h) :
    Triple P (ggmlAssert p >>= f) (fun _ => Q) fun _ => Q :=
  ((ggmlAssert_spec p).imp (fun _ h => h) (fun _ _ h => h) fun _ c hc => h c hc).bind
    fun _ s hs => hf hs.2 s hs.1

theorem keeps_pure {a : α} : Keeps P (pure a : CacheM α) := Triple.pure fun _ h => h

theorem keeps_step (hf : ∀ c, P c → P (f c)) : Keeps P (modify f) := Triple.modify hf

theorem keeps_set {c : KvCache} {x : CacheM α} (hc : P c) (hx : Keeps P x) :
    Keeps P (MonadStateOf.set c >>= fun _ => x) :=
  Triple.bind (R := fun _ => P) (Triple.set fun _ _ => hc) fun _ => hx

theorem keeps_forSeqs {f : Int → CacheM Unit} (hf : ∀ q, Keeps P (f q)) : Keeps P (forSeqs f) :=
  keeps_get fun _ _ => Triple.forM fun q _ => hf q

theorem rebuildAllocationHead_frame (c : KvCache) (s : Nat) :
    (c.rebuildAllocationHead s).cfg = c.cfg ∧ (c.rebuildAllocationHead s).cells = c.cells ∧
      (c.rebuildAllocationHead s).tail = c.tail := by
  unfold rebuildAllocationHead resetAllocationHead
  split
  · exact ⟨rfl, rfl, rfl⟩
  split
  · split <;> exact ⟨rfl, rfl, rfl⟩
  · exact ⟨rfl, rfl, rfl⟩

variable [hP : Framed P]

theorem keeps_modify
    (hf : ∀ c, (f c).cfg = c.cfg ∧ (f c).cells = c.cells ∧ (f c).tail = c.tail) :
    Keeps P (modify f) :=
  keeps_step fun c hc => hP.congr hc (hf c).1 (hf c).2.1 (hf c).2.2

theorem keeps_onTail {skip : α} (x : TailM α) : Keeps P (onTail skip x) := by
  intro c hc
  unfold onTail
  cases hTail : c.tail with
  | none => exact hc
  | some t =>
    dsimp only
    cases x t <;> exact hP.act hTail hc

theorem keeps_rebuild (s : Nat) : Keeps P (modify fun c => c.rebuildAllocationHead s) :=
  keeps_modify fun c => rebuildAllocationHead_frame c s

theorem keeps_rebuildAll : Keeps P (modify rebuildAllocationHeads) :=
  keeps_step fun _ h => sweep_keeps h fun c s _ hc =>
    have hFrame := rebuildAllocationHead_frame c s
    hP.congr hc hFrame.1 hFrame.2.1 hFrame.2.2

theorem keeps_materialize : Keeps P materializePendingCopies := by
  refine keeps_get fun _ _ => Triple.ite (fun _ => Triple.ite
    (fun _ => (keeps_onTail _).bind fun _ => ?_) fun _ => ?_) fun _ => keeps_pure
  all_goals exact keeps_modify fun _ => ⟨rfl, rfl, rfl⟩

theorem keeps_mark (q : Int) : Keeps P (markIfIncomplete q) := by
  intro c hc
  unfold markIfIncomplete
  cases c.tail with
  | none => exact hc
  | some t =>
    dsimp only
    split_ifs
    · exact keeps_onTail _ c hc
    · exact hc

theorem keeps_queue {src dst : Int} {s0 s1 : Nat} : Keeps P (queueTailCopies src dst s0 s1 p0 p1) :=
  (keeps_onTail _).bind fun _ => keeps_modify fun _ => ⟨rfl, rfl, rfl⟩

theorem keeps_recycle {stream i : Nat} : Keeps P (recycleCell stream i) :=
  keeps_get fun _ hc => Triple.ite
    (fun _ => keeps_set (hP.congr hc rfl rfl rfl) (keeps_onTail _)) fun _ => keeps_pure

theorem keeps_begin : Keeps P beginTailBatch :=
  keeps_get fun _ hc => Triple.ite
    (fun _ => keeps_set (hP.congr hc rfl rfl rfl) (keeps_onTail _)) fun _ => keeps_pure

theorem keeps_finish {success modified : Bool} : Keeps P (finishTailBatch success modified) :=
  keeps_get fun _ _ => Triple.ite
    (fun _ => (keeps_onTail _).bind fun _ => keeps_modify fun _ => ⟨rfl, rfl, rfl⟩)
    fun _ => keeps_pure

theorem keeps_clear (hReset : ∀ c, P c → P { c with
      cells := fun s => if s < c.cfg.nStream then (c.cells s).reset else c.cells s }) :
    Keeps P KvCache.clear := by
  unfold KvCache.clear
  refine Triple.bind (keeps_modify fun _ => ⟨rfl, rfl, rfl⟩) fun _ => (keeps_onTail _).bind fun _ =>
    Triple.bind (keeps_step fun c hc => hP.congr (hReset c hc) rfl rfl rfl) fun _ =>
      keeps_step fun c hc => sweep_keeps (P := P) hc fun d s _ hd => ?_
  unfold resetAllocationHead
  split
  · exact hd
  · exact hP.congr hd rfl rfl rfl

/-- `seq_rm` changes the tables in its loops over the cells. -/
theorem keeps_seqRmUnchecked
    (hOne : ∀ c₀ c, P c₀ → P c → P (sweepStream (rmBody q.toNat (rangeLo p0) (rangeHi p1))
      (c₀.cfg.seqToStream q.toNat) c))
    (hAll : ∀ c s, P c → s < c.cfg.nStream → P (sweepStream (rmAnyBody (rangeLo p0) (rangeHi p1)) s c)) :
    Keeps P (seqRmUnchecked q p0 p1) := by
  refine keeps_materialize.bind fun _ => keeps_get fun c₀ hc₀ => keeps_assert
    fun _ => Triple.ite (fun _ => ?_) fun _ => ?_
  · exact (keeps_onTail _).bind fun _ => (keeps_step fun c hc => hOne c₀ c hc₀ hc).bind fun _ =>
      (keeps_mark q).bind fun _ => keeps_rebuild _
  exact (keeps_forSeqs fun _ => keeps_onTail _).bind fun _ => (keeps_step fun c hc =>
    (sweep_keeps (P := fun d => P d ∧ d.cfg = c.cfg) ⟨hc, rfl⟩ fun d s hs hd =>
      ⟨hAll d s hd.1 (hd.2 ▸ hs), hd.2⟩).1).bind fun _ =>
      (keeps_forSeqs keeps_mark).bind fun _ => keeps_rebuildAll

omit hP in
theorem keeps_seqRm (h : Keeps P (seqRmUnchecked q p0 p1)) : Keeps P (seqRm q p0 p1) :=
  keeps_get fun _ _ => Triple.ite (fun _ => h.bind fun _ => keeps_pure) fun _ => keeps_pure

end KvCache

end Beellama.Ports
