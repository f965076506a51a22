import Efio.Spec.QueueFlow

/-!
# `Efio.Proofs.Evds.QueueSteps`: the kinds of steps of a queue

`queueStep_of_step`: every step of a queue is one of the kinds of
`QueueStep`. The proof reads each access of `enqueue`, `dequeue` and
`try_dequeue` once; later proofs go by the kinds.
-/

set_option autoImplicit false

namespace Efio.Proofs.Evds

open Efio.Evds
open Efio.Spec

variable {s s' : EvQueue} {l : QueueLabel}

theorem sameNodes_refl (mem : Addr → Node) : SameNodes mem mem :=
  ⟨fun _ => rfl, fun _ => rfl, fun _ => rfl, fun _ => rfl⟩

theorem sameNodes_magic (mem : Addr → Node) (a : Addr) (m : Nat) :
    SameNodes mem (Function.update mem a { mem a with magic := m }) := by
  refine ⟨?_, ?_, ?_, ?_⟩ <;> intro b <;> by_cases h : b = a
  all_goals first
    | rw [h, Function.update_self]
    | rw [Function.update_of_ne h]

/-- A step that only moves its thread. -/
theorem queueStep_goto {t : Nat} {q : QueuePc} (hrole : role q = role (s.pc t))
    (hreads : Reads s.mem (s.pc t) → Reads s.mem q) : QueueStep s l (s.goto t q) :=
  .plain t q s.mem s.eCount s.dCount hrole (sameNodes_refl _) hreads

theorem role_start (c : QueueCall) : role c.start = .none := by
  cases c <;> rfl

theorem role_retry (r : QueueResult) (v : Dequeuer) : role (EvQueue.retry r v) = .none := by
  cases v <;> rfl

theorem reads_start (mem : Addr → Node) (c : QueueCall) : Reads mem c.start := by
  cases c <;> trivial

theorem reads_retry (mem : Addr → Node) (r : QueueResult) (v : Dequeuer) :
    Reads mem (EvQueue.retry r v) := by
  cases v <;> trivial

theorem queueStep_of_enqueue {t : Nat} (h : s.enqueueStep t (s.pc t) = some s') :
    QueueStep s (.access t) s' := by
  cases hpc : s.pc t <;> rw [hpc] at h <;> simp only [EvQueue.enqueueStep, Option.some.injEq,
    reduceCtorEq] at h
  case exchange p =>
    subst h
    exact .exchange hpc
  case count p old =>
    subst h
    refine .plain t _ s.mem (s.eCount + 1) s.dCount ?_ (sameNodes_refl _) fun _ => ?_
    · rw [hpc]
      by_cases hold : old = 0
      · simp only [hold, ne_eq, not_true_eq_false, if_false, role, if_true]
      · simp only [hold, ne_eq, not_false_eq_true, if_true, role, if_false]
    · split <;> trivial
  case raiseInflight p old =>
    subst h
    exact .raise hpc
  case checkMagic p old =>
    split at h
    · rename_i hmagic
      subst h
      exact .abort ⟨t, p, old, hpc, hmagic⟩
    · subst h
      exact queueStep_goto (by rw [hpc]; rfl) fun _ => trivial
  case link p old =>
    subst h
    exact .link hpc
  case dropInflight p old =>
    subst h
    exact .drop hpc
  case setHead p =>
    subst h
    exact .setHead hpc

theorem queueStep_of_claim {t : Nat} (h : s.claimStep t (s.pc t) = some s') :
    QueueStep s (.access t) s' := by
  cases hpc : s.pc t <;> rw [hpc] at h <;> simp only [EvQueue.claimStep, Option.some.injEq,
    reduceCtorEq] at h
  case loadTail v =>
    subst h
    refine queueStep_goto ?_ fun _ => ?_
    · rw [hpc]
      split <;> rfl
    · split <;> trivial
  case loadHead v =>
    subst h
    refine queueStep_goto ?_ fun _ => ?_
    · rw [hpc]
      split
      · exact role_retry _ v
      · split
        · exact role_retry _ v
        · rfl
    · split
      · exact reads_retry _ _ v
      · split
        · exact reads_retry _ _ v
        · assumption
  case markHead v a =>
    split at h
    · rename_i hhead
      subst h
      exact .mark hpc hhead
    · subst h
      refine queueStep_goto ?_ fun _ => reads_retry _ _ v
      rw [hpc]
      exact role_retry _ v

theorem queueStep_of_advance {t : Nat} (h : s.advanceStep t (s.pc t) = some s') :
    QueueStep s (.access t) s' := by
  cases hpc : s.pc t <;> rw [hpc] at h <;> simp only [EvQueue.advanceStep, Option.some.injEq,
    reduceCtorEq] at h
  case loadNext v a =>
    subst h
    exact queueStep_goto (by rw [hpc]; rfl) fun _ => Or.inr rfl
  case testTail v a next =>
    split at h
    · rename_i htail
      cases v with
      | dequeue =>
        subst h
        exact .abort ⟨t, a, next, hpc, htail⟩
      | tryDequeue =>
        subst h
        exact .giveUp hpc htail
    · subst h
      refine queueStep_goto ?_ ?_
      · rw [hpc]
        split
        · rfl
        · rename_i hnext
          simp only [role, hnext, if_false]
      · rw [hpc]
        intro hreads
        split
        · trivial
        · exact hreads
  case clearTail v a =>
    split at h
    · rename_i htail
      subst h
      exact .clear hpc htail
    · subst h
      exact queueStep_goto (by rw [hpc]; rfl) fun _ => trivial
  case spin v a =>
    subst h
    refine queueStep_goto ?_ fun _ => ?_
    · rw [hpc]
      split
      · rfl
      · rename_i hnext
        simp only [role, hnext, if_false]
    · split
      · trivial
      · exact Or.inr rfl
  case swing v a next =>
    split at h
    · rename_i hhead
      subst h
      cases v with
      | dequeue => exact .swing hpc hhead rfl trivial
      | tryDequeue => exact .swing hpc hhead rfl trivial
    · rename_i hhead
      subst h
      exact .abort ⟨t, v, a, next, hpc, hhead⟩

theorem queueStep_of_retire {t : Nat} (h : s.retireStep t (s.pc t) = some s') :
    QueueStep s (.access t) s' := by
  cases hpc : s.pc t <;> rw [hpc] at h <;> simp only [EvQueue.retireStep, Option.some.injEq,
    reduceCtorEq] at h
  case countOut a =>
    subst h
    exact .plain t _ s.mem s.eCount (s.dCount + 1) (by rw [hpc]; rfl) (sameNodes_refl _) fun _ => trivial
  case readData v a =>
    subst h
    refine queueStep_goto ?_ fun _ => ?_
    · rw [hpc]
      cases v <;> rfl
    · cases v <;> rfl
  case testInflight a data =>
    split at h
    · rename_i hinflight
      subst h
      exact .abort ⟨t, a, data, hpc, hinflight⟩
    · subst h
      refine queueStep_goto (by rw [hpc]; rfl) ?_
      rw [hpc]
      exact id
  case testMagic a data =>
    split at h
    · rename_i hmagic
      subst h
      exact .abort ⟨t, a, data, hpc, hmagic⟩
    · subst h
      refine queueStep_goto (by rw [hpc]; rfl) ?_
      rw [hpc]
      exact id
  case storeMagic a data =>
    subst h
    refine .plain t _ _ s.eCount s.dCount (by rw [hpc]; rfl) (sameNodes_magic s.mem a _) ?_
    rw [hpc]
    intro hreads
    exact ((sameNodes_magic s.mem a EVQ_MAGIC_FREED).data a).trans hreads
  case free a data =>
    subst h
    exact .free hpc

/-- Every step is one of the kinds of `QueueStep`. -/
theorem queueStep_of_step (h : EvQueue.step l s = some s') : QueueStep s l s' := by
  unfold EvQueue.step at h
  split at h
  · cases h
  · cases l with
    | call t c =>
      simp only at h
      split at h
      · rename_i last hpc
        obtain rfl := Option.some.inj h
        refine queueStep_goto ?_ fun _ => reads_start _ c
        rw [hpc, role_start]
        rfl
      · cases h
    | malloc t a =>
      simp only [EvQueue.mallocStep] at h
      split at h
      · rename_i data hpc
        split at h
        · cases h
        · rename_i hok
          obtain rfl := Option.some.inj h
          rw [not_or, Bool.not_eq_true] at hok
          exact .malloc hpc hok.1 hok.2
      · cases h
    | access t =>
      simp only [EvQueue.threadStep, Option.or_eq_some_iff] at h
      rcases h with h | ⟨-, h | ⟨-, h | ⟨-, h⟩⟩⟩
      · exact queueStep_of_enqueue h
      · exact queueStep_of_claim h
      · exact queueStep_of_advance h
      · exact queueStep_of_retire h

end Efio.Proofs.Evds
