import Mathlib.Logic.Function.Basic

/-!
# `Efio.Lib.Turns`: guards that let tickets through in turn

Threads draw tickets from a counter. The ticket `k` belongs to the lane
`lane k`, and each lane has a guard: a thread enters when the guard of its
lane shows `k - N`, does its work there, and leaves by setting the guard to
`k`. `next i` is the ticket whose work is next on the lane `i`; the work
moves it on by `N`.

`Serving` is the invariant: a thread that is inside has the ticket whose
turn it is. There is one rule for each thing a thread does (`draw`,
`enter`, `move`, `exit`, `leave`), and the rules do not ask how a ticket is
mapped to its lane.
-/

set_option autoImplicit false

namespace Efio.Lib

/-- Where a thread is with its ticket: it has none, waits, is inside before
or after its work, or is past the guard. -/
inductive Turn where
  | outside
  | waiting (k : Int)
  | entered (k : Int)
  | moved (k : Int)
  | past (k : Int)
  deriving DecidableEq, Repr

/-- The ticket a thread has. -/
def Turn.ticket : Turn → Option Int
  | .outside => none
  | .waiting k | .entered k | .moved k | .past k => some k

variable {ι T : Type} {N counter : Int} {lane : Int → ι} {guard guard' next next' : ι → Int}
  {turn turn' : T → Turn} {t : T} {k : Int}

/-- Tickets are distinct, and the guards show whose turn it is. -/
structure Serving (N : Int) (lane : Int → ι) (counter : Int) (guard next : ι → Int)
    (turn : T → Turn) : Prop where
  range : ∀ t k, (turn t).ticket = some k → 0 ≤ k ∧ k < counter
  alone : ∀ t u k, (turn t).ticket = some k → (turn u).ticket = some k → t = u
  entered : ∀ t k, turn t = .entered k → k = next (lane k) ∧ guard (lane k) = k - N
  moved : ∀ t k, turn t = .moved k → k + N = next (lane k) ∧ guard (lane k) = k - N
  shown : ∀ i, guard i = next i - N ∨ ∃ t k, turn t = .moved k ∧ lane k = i

namespace Serving

/-- Only where the threads are matters. -/
theorem congr (h : Serving N lane counter guard next turn) (hturn : ∀ u, turn' u = turn u)
    (hnext : ∀ i, next' i = next i) : Serving N lane counter guard next' turn' := by
  obtain rfl : turn' = turn := funext hturn
  obtain rfl : next' = next := funext hnext
  exact h

/-- Of two threads, one has moved from where the other one is. -/
theorem other (h : Serving N lane counter guard next turn) {u : T} (hu : u ≠ t)
    (ht : (turn t).ticket = some k) : (turn u).ticket ≠ some k := by
  intro huk
  exact hu (h.alone u t k huk ht)

/-- A thread that moves and keeps its ticket or drops it makes no new one. -/
theorem ticket_of_move (hself : ∀ j, (turn' t).ticket = some j → (turn t).ticket = some j)
    (hother : ∀ u, u ≠ t → turn' u = turn u) :
    ∀ u j, (turn' u).ticket = some j → (turn u).ticket = some j := by
  intro u j hu
  by_cases hut : u = t
  · rw [hut] at hu ⊢
    exact hself j hu
  · rw [hother u hut] at hu
    exact hu

/-- Only one thread is inside a lane with its work before it. -/
theorem entered_unique (h : Serving N lane counter guard next turn) {u : T} {j : Int}
    (ht : turn t = .entered k) (hu : turn u = .entered j) (hlane : lane j = lane k) : u = t := by
  obtain ⟨hk, -⟩ := h.entered t k ht
  obtain ⟨hj, -⟩ := h.entered u j hu
  rw [hlane, ← hk] at hj
  subst hj
  exact h.alone u t j (by rw [hu]; rfl) (by rw [ht]; rfl)

/-- What the guard of a lane shows stays when a thread moves that has not
just done its work there. -/
theorem shown_of_move (h : Serving N lane counter guard next turn) {i : ι}
    (hself : ∀ j, turn t = .moved j → lane j ≠ i) (hother : ∀ u, u ≠ t → turn' u = turn u) :
    guard i = next i - N ∨ ∃ u j, turn' u = .moved j ∧ lane j = i := by
  rcases h.shown i with hi | ⟨u, j, hu, hj⟩
  · exact Or.inl hi
  · refine Or.inr ⟨u, j, ?_, hj⟩
    rw [hother u, hu]
    rintro rfl
    exact hself j hu hj

/-- A thread draws the next ticket. -/
theorem draw (h : Serving N lane counter guard next turn) (hcounter : 0 ≤ counter)
    (hself : turn t = .outside) (hself' : turn' t = .waiting counter)
    (hother : ∀ u, u ≠ t → turn' u = turn u) :
    Serving N lane (counter + 1) guard next turn' := by
  have hnew : ∀ u j, u ≠ t → (turn' u).ticket = some j → (turn u).ticket = some j := by
    intro u j hu hj
    rwa [hother u hu] at hj
  have hmine : ∀ j, (turn' t).ticket = some j → j = counter := by
    intro j hj
    rw [hself'] at hj
    exact (Option.some.inj hj).symm
  have hin : ∀ u, turn' u ≠ .waiting counter → turn' u = turn u := by
    intro u hu
    refine hother u ?_
    rintro rfl
    exact hu hself'
  refine ⟨?_, ?_, ?_, ?_, ?_⟩
  · intro u j hj
    by_cases hu : u = t
    · rw [hu] at hj
      rw [hmine j hj]
      omega
    · have := h.range u j (hnew u j hu hj)
      omega
  · intro u v j hu hv
    by_cases hut : u = t <;> by_cases hvt : v = t
    · rw [hut, hvt]
    · rw [hut] at hu
      have := h.range v j (hnew v j hvt hv)
      have := hmine j hu
      omega
    · rw [hvt] at hv
      have := h.range u j (hnew u j hut hu)
      have := hmine j hv
      omega
    · exact h.alone u v j (hnew u j hut hu) (hnew v j hvt hv)
  · intro u j hu
    rw [hin u (by rw [hu]; intro heq; cases heq)] at hu
    exact h.entered u j hu
  · intro u j hu
    rw [hin u (by rw [hu]; intro heq; cases heq)] at hu
    exact h.moved u j hu
  · intro i
    refine h.shown_of_move ?_ hother
    intro j hj
    rw [hself] at hj
    cases hj

/-- The guard shows the ticket: the thread enters. -/
theorem enter (h : Serving N lane counter guard next turn) (hguard : guard (lane k) = k - N)
    (hself : turn t = .waiting k) (hself' : turn' t = .entered k)
    (hother : ∀ u, u ≠ t → turn' u = turn u) : Serving N lane counter guard next turn' := by
  have hmine : (turn t).ticket = some k := by rw [hself]; rfl
  have hback := ticket_of_move (by rw [hself, hself']; exact fun _ h => h) hother
  have hin : ∀ u, turn' u ≠ .entered k → turn' u = turn u := by
    intro u hu
    refine hother u ?_
    rintro rfl
    exact hu hself'
  refine ⟨fun u j hu => h.range u j (hback u j hu),
    fun u v j hu hv => h.alone u v j (hback u j hu) (hback v j hv), ?_, ?_, ?_⟩
  · intro u j hu
    by_cases hut : u = t
    · rw [hut, hself'] at hu
      cases hu
      refine ⟨?_, hguard⟩
      -- The lane is not in use: its last thread would have this ticket too.
      rcases h.shown (lane k) with hshown | ⟨v, j, hv, hj⟩
      · omega
      · obtain ⟨-, hj'⟩ := h.moved v j hv
        rw [hj] at hj'
        obtain rfl : j = k := by omega
        have := h.alone v t j (by rw [hv]; rfl) hmine
        rw [this, hself] at hv
        cases hv
    · rw [hother u hut] at hu
      exact h.entered u j hu
  · intro u j hu
    rw [hin u (by rw [hu]; intro heq; cases heq)] at hu
    exact h.moved u j hu
  · intro i
    refine h.shown_of_move ?_ hother
    intro j hj
    rw [hself] at hj
    cases hj

/-- The thread does its work, and the lane moves on to the next ticket. -/
theorem move (h : Serving N lane counter guard next turn) (hN : 0 < N)
    (hself : turn t = .entered k) (hself' : turn' t = .moved k)
    (hother : ∀ u, u ≠ t → turn' u = turn u)
    (hnext : next' (lane k) = next (lane k) + N) (hnext' : ∀ i, i ≠ lane k → next' i = next i) :
    Serving N lane counter guard next' turn' := by
  have hmine : (turn t).ticket = some k := by rw [hself]; rfl
  have hback := ticket_of_move (by rw [hself, hself']; exact fun _ h => h) hother
  obtain ⟨hk, hguard⟩ := h.entered t k hself
  refine ⟨fun u j hu => h.range u j (hback u j hu),
    fun u v j hu hv => h.alone u v j (hback u j hu) (hback v j hv), ?_, ?_, ?_⟩
  · intro u j hu
    have hut : u ≠ t := by
      rintro rfl
      rw [hself'] at hu
      cases hu
    rw [hother u hut] at hu
    obtain ⟨hj, hguard'⟩ := h.entered u j hu
    by_cases hlane : lane j = lane k
    · exact absurd (h.entered_unique hself hu hlane) hut
    · rw [hnext' _ hlane]
      exact ⟨hj, hguard'⟩
  · intro u j hu
    by_cases hut : u = t
    · rw [hut, hself'] at hu
      cases hu
      rw [hnext]
      exact ⟨by omega, hguard⟩
    · rw [hother u hut] at hu
      obtain ⟨hj, hguard'⟩ := h.moved u j hu
      by_cases hlane : lane j = lane k
      · rw [hlane] at hj hguard'
        omega
      · rw [hnext' _ hlane]
        exact ⟨hj, hguard'⟩
  · intro i
    by_cases hi : i = lane k
    · exact Or.inr ⟨t, k, hself', hi.symm⟩
    · rw [hnext' i hi]
      refine h.shown_of_move ?_ hother
      intro j hj
      rw [hself] at hj
      cases hj

/-- The thread leaves and sets the guard to its ticket. -/
theorem exit [DecidableEq ι] (h : Serving N lane counter guard next turn) (hN : 0 < N)
    (hself : turn t = .moved k) (hself' : turn' t = .past k)
    (hother : ∀ u, u ≠ t → turn' u = turn u) :
    Serving N lane counter (Function.update guard (lane k) k) next turn' := by
  have hmine : (turn t).ticket = some k := by rw [hself]; rfl
  have hback := ticket_of_move (by rw [hself, hself']; exact fun _ h => h) hother
  obtain ⟨hk, hguard⟩ := h.moved t k hself
  refine ⟨fun u j hu => h.range u j (hback u j hu),
    fun u v j hu hv => h.alone u v j (hback u j hu) (hback v j hv), ?_, ?_, ?_⟩
  · intro u j hu
    have hut : u ≠ t := by
      rintro rfl
      rw [hself'] at hu
      cases hu
    rw [hother u hut] at hu
    obtain ⟨hj, hguard'⟩ := h.entered u j hu
    have hlane : lane j ≠ lane k := by
      intro hlane
      rw [hlane] at hj hguard'
      omega
    rw [Function.update_of_ne hlane]
    exact ⟨hj, hguard'⟩
  · intro u j hu
    have hut : u ≠ t := by
      rintro rfl
      rw [hself'] at hu
      cases hu
    rw [hother u hut] at hu
    obtain ⟨hj, hguard'⟩ := h.moved u j hu
    have hlane : lane j ≠ lane k := by
      intro hlane
      rw [hlane] at hj
      obtain rfl : j = k := by omega
      exact h.other hut hmine (by rw [hu]; rfl)
    rw [Function.update_of_ne hlane]
    exact ⟨hj, hguard'⟩
  · intro i
    by_cases hi : i = lane k
    · rw [hi, Function.update_self]
      exact Or.inl (by omega)
    · rw [Function.update_of_ne hi]
      refine h.shown_of_move ?_ hother
      rintro j hj rfl
      rw [hself] at hj
      cases hj
      exact hi rfl

/-- The thread drops its ticket. -/
theorem leave (h : Serving N lane counter guard next turn) (hself : turn t = .past k)
    (hself' : turn' t = .outside) (hother : ∀ u, u ≠ t → turn' u = turn u) :
    Serving N lane counter guard next turn' := by
  have hback : ∀ u j, (turn' u).ticket = some j → (turn u).ticket = some j :=
    ticket_of_move (by rw [hself']; intro j hj; cases hj) hother
  have hin : ∀ u, turn' u ≠ .outside → turn' u = turn u := by
    intro u hu
    refine hother u ?_
    rintro rfl
    exact hu hself'
  refine ⟨fun u j hu => h.range u j (hback u j hu),
    fun u v j hu hv => h.alone u v j (hback u j hu) (hback v j hv), ?_, ?_, ?_⟩
  · intro u j hu
    rw [hin u (by rw [hu]; intro heq; cases heq)] at hu
    exact h.entered u j hu
  · intro u j hu
    rw [hin u (by rw [hu]; intro heq; cases heq)] at hu
    exact h.moved u j hu
  · intro i
    refine h.shown_of_move ?_ hother
    intro j hj
    rw [hself] at hj
    cases hj

/-- Before anyone has drawn a ticket, the guards stand one round back. -/
theorem start (h : ∀ i, guard i = next i - N) : Serving N lane 0 guard next (fun _ : T => .outside) := by
  refine ⟨?_, ?_, ?_, ?_, fun i => Or.inl (h i)⟩
  · intro t k hk
    cases hk
  · intro t u k hk
    cases hk
  · intro t k hk
    cases hk
  · intro t k hk
    cases hk

end Serving

end Efio.Lib
