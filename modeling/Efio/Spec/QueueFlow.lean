import Efio.Evds.Queue

/-!
# `Efio.Spec.QueueFlow`: the parts the threads of a queue play

Of a thread in `enqueue` or `dequeue`, only a `Role` matters to the others:
which node it has, and whether that node is private, on the list, marked,
or already taken off. `QueueStep` lists what a step can do to the roles and
the memory. Most steps only read, and keep the role (`plain`).

`Reads` says that what a thread has read of its node is still there.
-/

set_option autoImplicit false

namespace Efio.Spec

open Efio.Evds

/-- The part a thread plays. -/
inductive Role where
  | none
  /-- It has filled in `p` and not yet exchanged it into the tail. -/
  | fresh (p : Addr)
  /-- It is about to store the link from `old` to `p`; `raised` says that it
  has set `inflight` of `old`. -/
  | linking (p old : Addr) (raised : Bool)
  /-- It found the queue empty and is about to store the head. -/
  | heading (p : Addr)
  /-- It has stored the link and not yet cleared `inflight` of `old`. -/
  | linked (p old : Addr)
  /-- It has marked the head `h`. -/
  | active (h : Addr)
  /-- It has marked the head `h` and cleared the tail. -/
  | cleared (h : Addr)
  /-- It has moved the head past `h`. -/
  | retiring (h : Addr)
  deriving DecidableEq, Repr

def role : QueuePc → Role
  | .idle _ | .alloc _ | .loadTail _ | .loadHead _ | .markHead _ _ => .none
  | .exchange p => .fresh p
  | .count p old => if old = 0 then .heading p else .linking p old false
  | .raiseInflight p old => .linking p old false
  | .checkMagic p old | .link p old => .linking p old true
  | .dropInflight p old => .linked p old
  | .setHead p => .heading p
  | .loadNext _ h | .testTail _ h _ | .clearTail _ h | .spin _ h => .active h
  | .swing _ h next => if next = 0 then .cleared h else .active h
  | .countOut h | .readData _ h | .testInflight h _ | .testMagic h _ | .storeMagic h _
  | .free h _ => .retiring h

/-- The node that nobody else in the same part has: the new node of an
enqueue until it can be reached from the head, and the node of a
consumer. -/
def Role.token : Role → Option Addr
  | .none | .linked _ _ => Option.none
  | .fresh p | .linking p _ _ | .heading p => some p
  | .active h | .cleared h | .retiring h => some h

/-- The node that is on no list and belongs to the thread alone. -/
def Role.owned : Role → Option Addr
  | .fresh p => some p
  | .cleared h | .retiring h => some h
  | _ => Option.none

/-- The node of a consumer. -/
def Role.held : Role → Option Addr
  | .active h | .cleared h | .retiring h => some h
  | _ => Option.none

/-- The node of an enqueue that is not yet exchanged. -/
def Role.new : Role → Option Addr
  | .fresh p => some p
  | _ => Option.none

/-- What the thread has read is still there. -/
def Reads (mem : Addr → Node) : QueuePc → Prop
  | .exchange p => (mem p).next = 0
  | .markHead _ h => h ≠ 0
  | .testTail _ h next | .swing _ h next => next = 0 ∨ (mem h).next = next
  | .testInflight h data | .testMagic h data | .storeMagic h data | .free h data =>
    (mem h).data = data
  | _ => True

/-- Two memories differ at most in `magic`. -/
structure SameNodes (mem mem' : Addr → Node) : Prop where
  next : ∀ a, (mem' a).next = (mem a).next
  data : ∀ a, (mem' a).data = (mem a).data
  id : ∀ a, (mem' a).id = (mem a).id
  inflight : ∀ a, (mem' a).inflight = (mem a).inflight

/-- Why the process ends. -/
def AbortCause (s : EvQueue) : QueueAbort → Prop
  | .notLive => ∃ t p old, s.pc t = .checkMagic p old ∧ (s.mem old).magic ≠ EVQ_MAGIC_LIVE
  | .tailNull => ∃ t h next, s.pc t = .testTail .dequeue h next ∧ s.tail = 0
  | .headCas => ∃ t v h next, s.pc t = .swing v h next ∧ s.head ≠ ⟨h, true⟩
  | .stillInflight => ∃ t h data, s.pc t = .testInflight h data ∧ (s.mem h).inflight ≠ 0
  | .magicInvalid => ∃ t h data, s.pc t = .testMagic h data ∧ (s.mem h).magic ≠ EVQ_MAGIC_LIVE

/-- All the ways in which the queue changes. -/
inductive QueueStep (s : EvQueue) : QueueLabel → EvQueue → Prop where
  | plain {l : QueueLabel} (t : Nat) (q : QueuePc) (mem : Addr → Node) (e d : Nat)
      (hrole : role q = role (s.pc t)) (hmem : SameNodes s.mem mem)
      (hreads : Reads s.mem (s.pc t) → Reads mem q) :
      QueueStep s l ({ s with mem := mem, eCount := e, dCount := d }.goto t q)
  | malloc {t a data : Nat} (hpc : s.pc t = .alloc data) (hnull : a ≠ 0) (hfree : s.live a = false) :
      QueueStep s (.malloc t a)
        ({ s.store a { data := data, next := 0, inflight := 0, id := s.gid, magic := EVQ_MAGIC_LIVE } with
          gid := s.gid + 1
          live := Function.update s.live a true }.goto t (.exchange a))
  | exchange {t : Nat} {p : Addr} (hpc : s.pc t = .exchange p) :
      QueueStep s (.access t)
        ({ s with tail := p, exchanged := s.exchanged ++ [s.elem p] }.goto t (.count p s.tail))
  | raise {t : Nat} {p old : Addr} (hpc : s.pc t = .raiseInflight p old) :
      QueueStep s (.access t)
        ((s.store old { s.mem old with inflight := 1 }).goto t (.checkMagic p old))
  | link {t : Nat} {p old : Addr} (hpc : s.pc t = .link p old) :
      QueueStep s (.access t)
        ((s.store old { s.mem old with next := p }).goto t (.dropInflight p old))
  | drop {t : Nat} {p old : Addr} (hpc : s.pc t = .dropInflight p old) :
      QueueStep s (.access t)
        ((s.store old { s.mem old with inflight := 0 }).goto t (.idle (some .done)))
  | setHead {t : Nat} {p : Addr} (hpc : s.pc t = .setHead p) :
      QueueStep s (.access t) ({ s with head := ⟨p, false⟩ }.goto t (.idle (some .done)))
  | mark {t : Nat} {v : Dequeuer} {h : Addr} (hpc : s.pc t = .markHead v h)
      (hhead : s.head = ⟨h, false⟩) :
      QueueStep s (.access t)
        ({ s with head := ⟨h, true⟩, claimed := s.claimed ++ [s.elem h] }.goto t (.loadNext v h))
  | clear {t : Nat} {v : Dequeuer} {h : Addr} (hpc : s.pc t = .clearTail v h) (htail : s.tail = h) :
      QueueStep s (.access t) ({ s with tail := 0 }.goto t (.swing v h 0))
  | giveUp {t : Nat} {h next : Addr} (hpc : s.pc t = .testTail .tryDequeue h next)
      (htail : s.tail = 0) : QueueStep s (.access t) (s.goto t (.idle (some .null)))
  | swing {t : Nat} {v : Dequeuer} {h next : Addr} {q : QueuePc} (hpc : s.pc t = .swing v h next)
      (hhead : s.head = ⟨h, true⟩) (hrole : role q = .retiring h) (hreads : Reads s.mem q) :
      QueueStep s (.access t) ({ s with head := ⟨next, false⟩ }.goto t q)
  | free {t : Nat} {h data : Nat} (hpc : s.pc t = .free h data) :
      QueueStep s (.access t)
        ({ s.store h Node.scrubbed with
          live := Function.update s.live h false
          returned := s.returned ++ [((s.mem h).id, data)] }.goto t (.idle (some (.data data))))
  | abort {l : QueueLabel} {e : QueueAbort} (hcause : AbortCause s e) : QueueStep s l (s.abort e)

/-! ### What a queue is for -/

/-- The thread `t` has claimed the element `e` and not yet returned it. -/
def Holds (s : EvQueue) (t : Nat) (e : Nat × Nat) : Prop :=
  ∃ h, (role (s.pc t)).held = some h ∧ s.elem h = e

/-- An exactly-once FIFO. Elements are claimed in the order in which they
were exchanged into the tail, and a claimed element has been returned once,
or one thread is about to return it. -/
structure Fifo (s : EvQueue) : Prop where
  order : s.claimed <+: s.exchanged
  distinct : (s.exchanged.map Prod.fst).Nodup
  once : s.returned.Nodup
  returned : ∀ e ∈ s.returned, e ∈ s.claimed
  kept : ∀ e ∈ s.claimed, e ∈ s.returned ∨ ∃ t, Holds s t e
  held : ∀ t e, Holds s t e → e ∈ s.claimed ∧ e ∉ s.returned
  alone : ∀ t u e, Holds s t e → Holds s u e → t = u

end Efio.Spec
