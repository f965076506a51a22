import Efio.Spec.StackHistory

/-!
# `Efio.Proofs.Evds.Stack`: the stack is linearizable

A pusher may overwrite a marked head and thereby erase the mark, and a
popper may later find the same mark set by another one. What carries the
proof is that the link of a node never changes once the node has been
pushed (`StackReads`): a popper that finds its mark takes off the top node
and stores the node behind it, whoever has set the mark.

`stack_linear` is the result; `StackInv` is the invariant.
-/

set_option autoImplicit false

namespace Efio.Proofs.Evds

open Efio.Lib
open Efio.Evds
open Efio.Spec

variable {s s' : EvStack} {l : List Addr} {t : Nat} {q : StackPc}

/-- The nodes that have been pushed. -/
def pushedNodes (s : EvStack) : List Addr := (pushes (ops s)).map Prod.fst

/-- The node of a `push` that is not yet on the stack. -/
def newNode : StackPc → Option Addr
  | .pushCas p _ => some p
  | _ => none

/-- What a thread has read is still there. -/
def StackReads (s : EvStack) : StackPc → Prop
  | .pushCas p oldH =>
    s.live p = true ∧ p ≠ 0 ∧ p ∉ pushedNodes s ∧ (s.mem p).next = oldH.addr
  | .markHead h => h ≠ 0
  | .loadNext h | .readData h => h ∈ pushedNodes s
  | .popCas h newH => h ∈ pushedNodes s ∧ (s.mem h).next = newH
  | _ => True

/-- The stack and its history; `l` are the nodes on the stack. -/
structure StackInv (s : EvStack) (l : List Addr) : Prop where
  chain : Linked (fun a => (s.mem a).next) s.head.addr l
  marked : s.head.mark = true → s.head.addr ≠ 0
  replay : lifo (ops s) [] = some (l.map s.elem)
  nodup : (pushedNodes s).Nodup
  alive : ∀ a ∈ pushedNodes s, s.live a = true
  elems : ∀ e ∈ pushes (ops s), s.elem e.1 = e
  reads : ∀ t, StackReads s (s.pc t)
  alone : ∀ t u p, newNode (s.pc t) = some p → newNode (s.pc u) = some p → t = u

/-- The nodes on the stack have been pushed. -/
theorem StackInv.mem_pushed (h : StackInv s l) {a : Addr} (ha : a ∈ l) : a ∈ pushedNodes s := by
  have hperm := pushes_perm h.replay
  rw [List.append_nil] at hperm
  have hmem : s.elem a ∈ pushes (ops s) :=
    hperm.mem_iff.mpr (List.mem_append_right _ (List.mem_map_of_mem ha))
  exact List.mem_map_of_mem (f := Prod.fst) hmem

/-- What a thread has read is still there when the memory changes only
where it has not looked. -/
theorem StackReads.congr (h : StackReads s q) (hmem : ∀ a, a ∈ pushedNodes s ∨ newNode q = some a →
      s'.mem a = s.mem a) (hlive : ∀ a, s.live a = true → s'.live a = true)
    (hmore : ∀ a ∈ pushedNodes s, a ∈ pushedNodes s')
    (honly : ∀ a, newNode q = some a → a ∈ pushedNodes s' → a ∈ pushedNodes s) : StackReads s' q := by
  cases q with
  | pushCas p oldH =>
    obtain ⟨halive, hne, hnot, hnext⟩ := h
    refine ⟨hlive p halive, hne, fun hin => hnot (honly p rfl hin), ?_⟩
    rw [hmem p (Or.inr rfl)]
    exact hnext
  | markHead a => exact h
  | loadNext a => exact hmore a h
  | readData a => exact hmore a h
  | popCas a n =>
    obtain ⟨hpushed, hnext⟩ := h
    refine ⟨hmore a hpushed, ?_⟩
    rw [hmem a (Or.inl hpushed)]
    exact hnext
  | _ => trivial

/-- The thread `t` moves to `q`; what is on the stack and what the others
have read stays. -/
theorem StackInv.move {l' : List Addr} (h : StackInv s l) (hpc : s'.pc = Function.update s.pc t q)
    (hchain : Linked (fun a => (s'.mem a).next) s'.head.addr l')
    (hmarked : s'.head.mark = true → s'.head.addr ≠ 0)
    (hreplay : lifo (ops s') [] = some (l'.map s'.elem)) (hnodup : (pushedNodes s').Nodup)
    (halive : ∀ a ∈ pushedNodes s', s'.live a = true) (helems : ∀ e ∈ pushes (ops s'), s'.elem e.1 = e)
    (hreads : StackReads s' q)
    (halone : ∀ p, newNode q = some p → ∀ u, u ≠ t → newNode (s.pc u) ≠ some p)
    (hothers : ∀ u, u ≠ t → StackReads s' (s.pc u)) : StackInv s' l' := by
  have hself : s'.pc t = q := by rw [hpc, Function.update_self]
  have hother : ∀ u, u ≠ t → s'.pc u = s.pc u := by
    intro u hu
    rw [hpc, Function.update_of_ne hu]
  refine ⟨hchain, hmarked, hreplay, hnodup, halive, helems, ?_, ?_⟩
  · intro u
    by_cases hu : u = t
    · rw [hu, hself]
      exact hreads
    · rw [hother u hu]
      exact hothers u hu
  · intro u v p hu hv
    by_cases hut : u = t <;> by_cases hvt : v = t
    · rw [hut, hvt]
    · rw [hut, hself] at hu
      rw [hother v hvt] at hv
      exact absurd hv (halone p hu v hvt)
    · rw [hvt, hself] at hv
      rw [hother u hut] at hu
      exact absurd hu (halone p hv u hut)
    · rw [hother u hut] at hu
      rw [hother v hvt] at hv
      exact h.alone u v p hu hv

/-- A step that changes nothing but the mark and the place of `t`. -/
theorem StackInv.goto (h : StackInv s l) {b : Bool} (hmark : b = true → s.head.addr ≠ 0)
    (hpc : s'.pc = Function.update s.pc t q) (hhead : s'.head = ⟨s.head.addr, b⟩)
    (hmem : s'.mem = s.mem) (hlive : s'.live = s.live) (hhistory : s'.history = s.history)
    (hreads : StackReads s q) (hnew : newNode q = none) : StackInv s' l := by
  have hops : ops s' = ops s := by rw [ops, ops, hhistory]
  have hpushed : pushedNodes s' = pushedNodes s := by rw [pushedNodes, pushedNodes, hops]
  have helem : s'.elem = s.elem := by
    funext a
    rw [EvStack.elem, EvStack.elem, hmem]
  have hreads' : ∀ {r : StackPc}, StackReads s r → StackReads s' r := by
    intro r hr
    refine hr.congr (fun a _ => by rw [hmem]) (fun a ha => by rwa [hlive]) ?_ ?_
    · intro a ha
      rwa [hpushed]
    · intro a _ ha
      rwa [hpushed] at ha
  refine h.move hpc ?_ ?_ ?_ ?_ ?_ ?_ (hreads' hreads) ?_ fun u _ => hreads' (h.reads u)
  · rw [hmem, hhead]
    exact h.chain
  · rw [hhead]
    exact hmark
  · rw [hops, helem]
    exact h.replay
  · rw [hpushed]
    exact h.nodup
  · rw [hpushed, hlive]
    exact h.alive
  · rw [hops, helem]
    exact h.elems
  · intro p hp
    rw [hnew] at hp
    cases hp

/-! ### `push` -/

theorem StackInv.malloc (h : StackInv s l) {a data : Nat} {oldH : HeadWord} (hne : a ≠ 0)
    (hfree : s.live a = false) :
    StackInv ({ s with
      mem := Function.update s.mem a ⟨data, oldH.addr⟩
      live := Function.update s.live a true }.goto t (.pushCas a oldH)) l := by
  have hold : ∀ b, s.live b = true → b ≠ a := by
    rintro b hb rfl
    exact Bool.false_ne_true (hfree.symm.trans hb)
  have hmem : ∀ b, s.live b = true →
      Function.update s.mem a (⟨data, oldH.addr⟩ : SNode) b = s.mem b :=
    fun b hb => Function.update_of_ne (hold b hb) _ _
  have hlive : ∀ b, s.live b = true → Function.update s.live a true b = true := by
    intro b hb
    rw [Function.update_of_ne (hold b hb)]
    exact hb
  have hnode : ∀ u p, newNode (s.pc u) = some p → s.live p = true := by
    intro u p hp
    have hreads := h.reads u
    cases hpc : s.pc u <;> rw [hpc] at hp hreads <;> cases hp
    exact hreads.1
  refine h.move rfl ?_ h.marked ?_ h.nodup ?_ ?_ ?_ ?_ ?_
  · exact h.chain.congr fun b hb => congrArg SNode.next (hmem b (h.alive b (h.mem_pushed hb)))
  · refine h.replay.trans (congrArg some (List.map_congr_left fun b hb => ?_))
    exact congrArg (fun n : SNode => (b, n.data)) (hmem b (h.alive b (h.mem_pushed hb))).symm
  · intro b hb
    exact hlive b (h.alive b hb)
  · intro e he
    refine Eq.trans ?_ (h.elems e he)
    exact congrArg (fun n : SNode => (e.1, n.data)) (hmem e.1 (h.alive _ (List.mem_map_of_mem he)))
  · refine ⟨Function.update_self _ _ _, hne, fun hin => hold a (h.alive a hin) rfl, ?_⟩
    exact congrArg SNode.next (Function.update_self a _ s.mem)
  · intro p hp u _ hu
    cases hp
    exact hold a (hnode u a hu) rfl
  · intro u _
    refine (h.reads u).congr ?_ hlive (fun _ hb => hb) fun _ _ hb => hb
    rintro b (hb | hb)
    · exact hmem b (h.alive b hb)
    · exact hmem b (hnode u b hb)

/-- The head was not what `push` expected; it starts from what it is. -/
theorem StackInv.retry (h : StackInv s l) {p : Addr} {oldH : HeadWord}
    (hpc : s.pc t = .pushCas p oldH) :
    StackInv ({ s with mem := Function.update s.mem p { s.mem p with next := s.head.addr } }.goto t
      (.pushCas p s.head)) l := by
  obtain ⟨halive, hne, hnot, -⟩ : StackReads s (.pushCas p oldH) := hpc ▸ h.reads t
  have hmine : newNode (s.pc t) = some p := by rw [hpc]; rfl
  have hmem : ∀ b, b ≠ p →
      Function.update s.mem p { s.mem p with next := s.head.addr } b = s.mem b :=
    fun b hb => Function.update_of_ne hb _ _
  have hpushed : ∀ b ∈ pushedNodes s, b ≠ p := by
    rintro b hb rfl
    exact hnot hb
  refine h.move rfl ?_ h.marked ?_ h.nodup h.alive ?_ ?_ ?_ ?_
  · exact h.chain.congr fun b hb => congrArg SNode.next (hmem b (hpushed b (h.mem_pushed hb)))
  · refine h.replay.trans (congrArg some (List.map_congr_left fun b hb => ?_))
    exact congrArg (fun n : SNode => (b, n.data)) (hmem b (hpushed b (h.mem_pushed hb))).symm
  · intro e he
    refine Eq.trans ?_ (h.elems e he)
    exact congrArg (fun n : SNode => (e.1, n.data)) (hmem e.1 (hpushed _ (List.mem_map_of_mem he)))
  · exact ⟨halive, hne, hnot, congrArg SNode.next (Function.update_self p _ s.mem)⟩
  · intro b hb u hu hother
    cases hb
    exact hu (h.alone u t p hother hmine)
  · intro u hu
    refine (h.reads u).congr ?_ (fun _ hb => hb) (fun _ hb => hb) fun _ _ hb => hb
    rintro b (hb | hb)
    · exact hmem b (hpushed b hb)
    · refine hmem b ?_
      rintro rfl
      exact hu (h.alone u t b hb hmine)

/-- The node becomes the top of the stack. -/
theorem StackInv.push (h : StackInv s l) {p : Addr} (hpc : s.pc t = .pushCas p s.head) :
    StackInv (({ s with head := ⟨p, false⟩ }.commit t (.push (s.elem p))).finish t .done) (p :: l) := by
  obtain ⟨halive, hne, hnot, hnext⟩ : StackReads s (.pushCas p s.head) := hpc ▸ h.reads t
  have hmine : newNode (s.pc t) = some p := by rw [hpc]; rfl
  obtain ⟨s₁, hs₁⟩ : ∃ s₁, s₁ = ({ s with head := ⟨p, false⟩ }.commit t (.push (s.elem p))).finish t
    .done := ⟨_, rfl⟩
  have hops : ops s₁ = ops s ++ [.push (s.elem p)] := by
    rw [hs₁, ops, ops]
    exact List.map_append
  have hpushes : pushes (ops s₁) = pushes (ops s) ++ [s.elem p] := by
    rw [hops, pushes_snoc]
    rfl
  have hpushed : pushedNodes s₁ = pushedNodes s ++ [p] := by
    rw [pushedNodes, hpushes, List.map_append]
    rfl
  have hmore : ∀ a ∈ pushedNodes s, a ∈ pushedNodes s₁ := by
    intro a ha
    rw [hpushed]
    exact List.mem_append_left _ ha
  rw [← hs₁]
  refine h.move (q := .idle) (by rw [hs₁]; rfl) ?_ ?_ ?_ ?_ ?_ ?_ trivial nofun ?_
  · rw [hs₁]
    refine .cons hne ?_
    show Linked (fun a => (s.mem a).next) (s.mem p).next l
    rw [hnext]
    exact h.chain
  · rw [hs₁]
    intro hmark
    cases hmark
  · rw [hops]
    refine lifo_snoc h.replay ?_
    rw [hs₁]
    rfl
  · rw [hpushed, ← List.concat_eq_append]
    exact h.nodup.concat hnot
  · intro a ha
    rw [hpushed] at ha
    rw [hs₁]
    obtain ha | rfl := List.mem_append.mp ha |>.imp_right List.mem_singleton.mp
    · exact h.alive a ha
    · exact halive
  · intro e he
    rw [hpushes] at he
    rw [hs₁]
    obtain he | rfl := List.mem_append.mp he |>.imp_right List.mem_singleton.mp
    · exact h.elems e he
    · rfl
  · intro u hu
    refine (h.reads u).congr (fun a _ => by rw [hs₁]; rfl) (fun a ha => by rw [hs₁]; exact ha) hmore ?_
    intro a ha hin
    rw [hpushed] at hin
    obtain hin | rfl := List.mem_append.mp hin |>.imp_right List.mem_singleton.mp
    · exact hin
    · exact absurd (h.alone u t a ha hmine) hu

/-! ### `pop` -/

theorem ops_commit (s : EvStack) (t : Nat) (op : LifoOp (Addr × Nat)) :
    ops (s.commit t op) = ops s ++ [op] := List.map_append

/-- The history grows by an outcome that pushes nothing. -/
theorem StackInv.record (h : StackInv s l) {l' : List Addr} (op : LifoOp (Addr × Nat))
    (head : HeadWord) (returned : List (Nat × StackResult)) (hop : pushes [op] = [])
    (hchain : Linked (fun a => (s.mem a).next) head.addr l') (hmark : head.mark = false)
    (happly : op.apply (l.map s.elem) = some (l'.map s.elem)) (hreads : StackReads s q)
    (hnew : newNode q = none) :
    StackInv { ({ s with head := head }.commit t op).goto t q with returned := returned } l' := by
  obtain ⟨s₁, hs₁⟩ : ∃ s₁, s₁ =
    { ({ s with head := head }.commit t op).goto t q with returned := returned } := ⟨_, rfl⟩
  have hops : ops s₁ = ops s ++ [op] := by
    rw [hs₁]
    exact ops_commit { s with head := head } t op
  have hpushes : pushes (ops s₁) = pushes (ops s) := by
    rw [hops, pushes_snoc, hop, List.append_nil]
  have hpushed : pushedNodes s₁ = pushedNodes s := by rw [pushedNodes, hpushes, pushedNodes]
  have hreads' : ∀ {r : StackPc}, StackReads s r → StackReads s₁ r := by
    intro r hr
    refine hr.congr (fun a _ => by rw [hs₁]; rfl) (fun a ha => by rw [hs₁]; exact ha) ?_ ?_
    · intro a ha
      rwa [hpushed]
    · intro a _ ha
      rwa [hpushed] at ha
  rw [← hs₁]
  refine h.move (q := q) (by rw [hs₁]; rfl) (by rw [hs₁]; exact hchain) ?_ ?_ ?_ ?_ ?_ (hreads' hreads)
    ?_ fun u _ => hreads' (h.reads u)
  · rw [hs₁]
    intro hmarked
    exact absurd (hmark.symm.trans hmarked) Bool.false_ne_true
  · rw [hops]
    refine (lifo_snoc h.replay happly).trans ?_
    rw [hs₁]
    rfl
  · rw [hpushed]
    exact h.nodup
  · rw [hpushed, hs₁]
    exact h.alive
  · rw [hpushes, hs₁]
    exact h.elems
  · intro p hp
    rw [hnew] at hp
    cases hp

/-- The marked node is the top of the stack, whoever has marked it. -/
theorem StackInv.pop (h : StackInv s l) {a n : Addr} (hpc : s.pc t = .popCas a n)
    (hhead : s.head = ⟨a, true⟩) :
    ∃ l', l = a :: l' ∧
      StackInv (({ s with head := ⟨n, false⟩ }.commit t (.pop (s.elem a))).goto t (.readData a)) l' := by
  obtain ⟨hpushed, hnext⟩ : StackReads s (.popCas a n) := hpc ▸ h.reads t
  have hne : s.head.addr ≠ 0 := h.marked (by rw [hhead])
  obtain ⟨l', hl, htail⟩ := h.chain.eq_cons hne
  rw [hhead] at hl htail
  refine ⟨l', hl, h.record (.pop (s.elem a)) ⟨n, false⟩ s.returned rfl (hnext ▸ htail) rfl ?_ hpushed rfl⟩
  rw [hl, List.map_cons]
  exact if_pos rfl

/-! ### Calls and results -/

/-- The calls and the results of every thread are those of its outcomes. -/
structure StackCalls (s : EvStack) : Prop where
  invoked : ∀ t, byThread t s.invoked =
    (byThread t s.history).map callOf ++ pendingCall s.mem (s.pc t)
  returned : ∀ t, (byThread t s.history).map resultOf =
    byThread t s.returned ++ pendingResult s.mem (s.pc t)

/-- What is pending of a thread looks at the data of allocated nodes. -/
theorem StackInv.pending (h : StackInv s l) {mem : Addr → SNode}
    (hdata : ∀ a, s.live a = true → (mem a).data = (s.mem a).data) (u : Nat) :
    pendingCall mem (s.pc u) = pendingCall s.mem (s.pc u) ∧
      pendingResult mem (s.pc u) = pendingResult s.mem (s.pc u) := by
  have hreads := h.reads u
  cases hpc : s.pc u <;> rw [hpc] at hreads
  case pushCas p oldH =>
    simp only [pendingCall, pendingResult, hdata p hreads.1, and_self]
  case readData a =>
    simp only [pendingCall, pendingResult, hdata a (h.alive a hreads), and_self]
  all_goals exact ⟨rfl, rfl⟩

/-- The thread `t` moves to `q`, with the calls `cs`, the outcomes `es` and
the results `rs`. -/
theorem StackCalls.move (h : StackCalls s) (hinv : StackInv s l) (cs : List StackCall)
    (es : List (LifoOp (Addr × Nat))) (rs : List StackResult)
    (hpc : s'.pc = Function.update s.pc t q)
    (hdata : ∀ a, s.live a = true → (s'.mem a).data = (s.mem a).data)
    (hinvoked : s'.invoked = s.invoked ++ cs.map (t, ·))
    (hhistory : s'.history = s.history ++ es.map (t, ·))
    (hreturned : s'.returned = s.returned ++ rs.map (t, ·))
    (hcalls : pendingCall s.mem (s.pc t) ++ cs = es.map callOf ++ pendingCall s'.mem q)
    (hresults : pendingResult s.mem (s.pc t) ++ es.map resultOf = rs ++ pendingResult s'.mem q) :
    StackCalls s' := by
  refine ⟨?_, ?_⟩
  · intro u
    rw [hinvoked, hhistory, hpc, byThread_append, byThread_append, h.invoked u]
    by_cases hu : t = u
    · subst hu
      rw [if_pos rfl, if_pos rfl, Function.update_self, List.append_assoc, hcalls, List.map_append,
        List.append_assoc]
    · rw [if_neg hu, if_neg hu, Function.update_of_ne (Ne.symm hu), (hinv.pending hdata u).1,
        List.append_nil, List.append_nil]
  · intro u
    rw [hreturned, hhistory, hpc, byThread_append, byThread_append, List.map_append, h.returned u]
    by_cases hu : t = u
    · subst hu
      rw [if_pos rfl, if_pos rfl, Function.update_self, List.append_assoc, hresults, List.append_assoc]
    · rw [if_neg hu, if_neg hu, Function.update_of_ne (Ne.symm hu), (hinv.pending hdata u).2,
        List.map_nil, List.append_nil, List.append_nil]

/-- The thread goes on in its call. -/
theorem StackCalls.goto (h : StackCalls s) (hinv : StackInv s l)
    (hpc : s'.pc = Function.update s.pc t q)
    (hdata : ∀ a, s.live a = true → (s'.mem a).data = (s.mem a).data)
    (hinvoked : s'.invoked = s.invoked) (hhistory : s'.history = s.history)
    (hreturned : s'.returned = s.returned)
    (hcall : pendingCall s.mem (s.pc t) = pendingCall s'.mem q)
    (hresult : pendingResult s.mem (s.pc t) = pendingResult s'.mem q) : StackCalls s' := by
  refine h.move hinv [] [] [] hpc hdata ?_ ?_ ?_ ?_ ?_
  · rw [hinvoked, List.map_nil, List.append_nil]
  · rw [hhistory, List.map_nil, List.append_nil]
  · rw [hreturned, List.map_nil, List.append_nil]
  · rw [hcall, List.append_nil]
    rfl
  · rw [hresult, List.map_nil, List.append_nil]
    rfl

/-! ### Every step -/

/-- The invariant with some nodes on the stack. -/
def Stacked (s : EvStack) : Prop := ∃ l, StackInv s l ∧ StackCalls s

/-- A step that only reads, or sets the mark, and stays in its call. -/
theorem Stacked.goto (h : Stacked s) {b : Bool} (hmark : b = true → s.head.addr ≠ 0)
    (hreads : StackReads s q) (hnew : newNode q = none)
    (hcall : pendingCall s.mem (s.pc t) = pendingCall s.mem q)
    (hresult : pendingResult s.mem (s.pc t) = pendingResult s.mem q) :
    Stacked ({ s with head := ⟨s.head.addr, b⟩ }.goto t q) := by
  obtain ⟨l, hinv, hcalls⟩ := h
  exact ⟨l, hinv.goto hmark rfl rfl rfl rfl rfl hreads hnew,
    hcalls.goto hinv rfl (fun _ _ => rfl) rfl rfl rfl hcall hresult⟩

theorem Stacked.call (h : Stacked s) {c : StackCall} (hpc : s.pc t = .idle) :
    Stacked { s.goto t c.start with invoked := s.invoked ++ [(t, c)] } := by
  obtain ⟨l, hinv, hcalls⟩ := h
  refine ⟨l, hinv.goto (b := s.head.mark) (q := c.start) hinv.marked rfl rfl rfl rfl rfl ?_ ?_,
    hcalls.move hinv [c] [] [] rfl (fun _ _ => rfl) rfl ?_ ?_ ?_ ?_⟩
  · cases c <;> trivial
  · cases c <;> rfl
  · exact (List.append_nil _).symm
  · exact (List.append_nil _).symm
  · rw [hpc]
    cases c <;> rfl
  · rw [hpc]
    cases c <;> rfl

theorem Stacked.malloc (h : Stacked s) {a : Addr} (hstep : s.mallocStep t a = some s') :
    Stacked s' := by
  obtain ⟨l, hinv, hcalls⟩ := h
  simp only [EvStack.mallocStep] at hstep
  split at hstep
  · rename_i data oldH hpc
    split at hstep <;> cases hstep
    rename_i hok
    rw [not_or, Bool.not_eq_true] at hok
    refine ⟨l, hinv.malloc hok.1 hok.2, hcalls.goto hinv rfl ?_ rfl rfl rfl ?_ ?_⟩
    · intro b hb
      refine congrArg SNode.data (Function.update_of_ne ?_ _ _)
      rintro rfl
      exact Bool.false_ne_true (hok.2.symm.trans hb)
    · rw [hpc]
      show [StackCall.push data] = [.push (Function.update s.mem a ⟨data, oldH.addr⟩ a).data]
      rw [Function.update_self]
    · rw [hpc]
      rfl
  · cases hstep

theorem Stacked.push (h : Stacked s) (hstep : s.pushStep t (s.pc t) = some s') : Stacked s' := by
  cases hpc : s.pc t <;> rw [hpc] at hstep <;> simp only [EvStack.pushStep, Option.some.injEq,
    reduceCtorEq] at hstep
  case pushLoad data =>
    subst hstep
    obtain ⟨l, hinv, -⟩ := id h
    exact h.goto (b := s.head.mark) hinv.marked trivial rfl (by rw [hpc]; rfl) (by rw [hpc]; rfl)
  case pushCas p oldH =>
    obtain ⟨l, hinv, hcalls⟩ := h
    split at hstep
    · rename_i hhead
      subst hstep hhead
      refine ⟨p :: l, hinv.push hpc, hcalls.move hinv [] [.push (s.elem p)] [.done] rfl
        (fun _ _ => rfl) ?_ rfl rfl ?_ ?_⟩
      · exact (List.append_nil _).symm
      · rw [hpc]
        rfl
      · rw [hpc]
        rfl
    · subst hstep
      have hdata : ∀ b, (Function.update s.mem p { s.mem p with next := s.head.addr } b).data =
          (s.mem b).data := by
        intro b
        by_cases hb : b = p
        · rw [hb, Function.update_self]
        · rw [Function.update_of_ne hb]
      refine ⟨l, hinv.retry hpc, hcalls.goto hinv rfl (fun b _ => hdata b) rfl rfl rfl ?_ ?_⟩
      · rw [hpc]
        exact congrArg (fun d => [StackCall.push d]) (hdata p).symm
      · rw [hpc]
        rfl

theorem Stacked.pop (h : Stacked s) (hstep : s.popStep t (s.pc t) = some s') : Stacked s' := by
  obtain ⟨l, hinv, hcalls⟩ := id h
  have hreads := hinv.reads t
  cases hpc : s.pc t <;> rw [hpc] at hstep hreads <;> simp only [EvStack.popStep, Option.some.injEq,
    reduceCtorEq] at hstep
  case popLoad =>
    split at hstep
    · rename_i hnull
      subst hstep
      have haddr : s.head.addr = 0 := by rw [hnull]
      obtain rfl : l = [] := (haddr ▸ hinv.chain).eq_nil
      refine ⟨[], hinv.record .empty s.head _ rfl (haddr ▸ .nil) (by rw [hnull]) rfl
        trivial rfl, hcalls.move hinv [] [.empty] [.null] rfl (fun _ _ => rfl) ?_ rfl rfl ?_ ?_⟩
      · exact (List.append_nil _).symm
      · rw [hpc]
        rfl
      · rw [hpc]
        rfl
    · rename_i hsome
      subst hstep
      refine h.goto (b := s.head.mark) hinv.marked ?_ ?_ ?_ ?_
      · split
        · trivial
        · rename_i hopen
          intro haddr
          refine hsome ?_
          rw [Bool.not_eq_true] at hopen
          rw [← haddr, ← hopen]
      · split <;> rfl
      · rw [hpc]
        split <;> rfl
      · rw [hpc]
        split <;> rfl
  case markHead a =>
    split at hstep
    · rename_i hhead
      subst hstep
      have haddr : s.head.addr = a := by rw [hhead]
      have hne : a ≠ 0 := hreads
      obtain ⟨l', hl, -⟩ := hinv.chain.eq_cons (haddr.symm ▸ hne)
      have htop : a ∈ l := by
        rw [hl, haddr]
        exact List.mem_cons_self
      have hgoto := h.goto (t := t) (q := .loadNext a) (b := true) (fun _ => haddr.symm ▸ hne)
        (hinv.mem_pushed htop) rfl (by rw [hpc]; rfl) (by rw [hpc]; rfl)
      rw [haddr] at hgoto
      exact hgoto
    · subst hstep
      exact h.goto (b := s.head.mark) hinv.marked trivial rfl (by rw [hpc]; rfl) (by rw [hpc]; rfl)
  case loadNext a =>
    subst hstep
    exact h.goto (b := s.head.mark) hinv.marked ⟨hreads, rfl⟩ rfl (by rw [hpc]; rfl)
      (by rw [hpc]; rfl)
  case popCas a n =>
    split at hstep
    · rename_i hhead
      subst hstep
      obtain ⟨l', -, hinv'⟩ := hinv.pop hpc hhead
      refine ⟨l', hinv', hcalls.move hinv [] [.pop (s.elem a)] [] rfl (fun _ _ => rfl) ?_ rfl ?_ ?_ ?_⟩
      · exact (List.append_nil _).symm
      · exact (List.append_nil _).symm
      · rw [hpc]
        rfl
      · rw [hpc]
        rfl
    · subst hstep
      exact h.goto (b := s.head.mark) hinv.marked trivial rfl (by rw [hpc]; rfl) (by rw [hpc]; rfl)
  case readData a =>
    subst hstep
    refine ⟨l, hinv.goto (b := s.head.mark) (q := .idle) hinv.marked rfl rfl rfl rfl rfl trivial rfl,
      hcalls.move hinv [] [] [.data (s.mem a).data] rfl (fun _ _ => rfl) ?_ ?_ rfl ?_ ?_⟩
    · exact (List.append_nil _).symm
    · exact (List.append_nil _).symm
    · rw [hpc]
      rfl
    · rw [hpc]
      rfl

theorem Stacked.step (h : Stacked s) {lb : StackLabel} (hstep : EvStack.step lb s = some s') :
    Stacked s' := by
  cases lb with
  | call t c =>
    simp only [EvStack.step] at hstep
    split at hstep <;> cases hstep
    rename_i hpc
    exact h.call hpc
  | malloc t a => exact h.malloc hstep
  | access t =>
    simp only [EvStack.step, Option.or_eq_some_iff] at hstep
    obtain hstep | ⟨-, hstep⟩ := hstep
    · exact h.push hstep
    · exact h.pop hstep

end Efio.Proofs.Evds
