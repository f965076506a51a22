import Efio.Proofs.Evds.BufferedReading

/-!
# `Efio.Proofs.Evds.LimitedReaders`: readers with limits cut up the stream

A reader that is drained calls `low_read_from_source` until it returns 0.
By `Reading.lowReadFromSource` each call moves bytes from the front of
`within` into its segment; the last one erases what the call before it had
handed out, so that the next reader starts where this one has stopped.
-/

set_option autoImplicit false

namespace Efio.Proofs.Evds

open Efio.Lib
open Efio.Evds
open Efio.Spec

variable {s : BufferedStream} {h : Heap UInt8} {l : ChunkedMemoryStream}

/-- A reader that is drained hands out what is within its limit and
removes it. -/
theorem Reading.drain (hs : Reading s) {size : Int} (hpos : 0 < size) (hmax : size < 2 ^ 63) {fuel : Nat}
    (hfuel : (within s).length < fuel) :
    ∃ s' segments, s.drain size fuel = .ok (s', segments) ∧ PushedList s'.heap s'.memoryStream ∧
      segments.flatten = within s ∧ (∀ segment ∈ segments, (segment.length : Int) ≤ size) ∧
      content s'.heap s'.memoryStream =
        (content s.heap s.memoryStream).drop (s.prevLen + (within s).length) := by
  induction fuel generalizing s with
  | zero => exact absurd hfuel (Nat.not_lt_zero _)
  | succ fuel ih =>
    obtain ⟨s₁, segment, hread, hs₁, -, hsegment, hsize, hwithin, hlast, hprev, hcontent⟩ :=
      hs.lowReadFromSource hpos hmax
    by_cases hnil : segment = []
    · subst hnil
      have hnone : within s = [] := hlast rfl
      refine ⟨s₁, [], ?_, hs₁.list, ?_, ?_, ?_⟩
      · rw [BufferedStream.drain, hread]
        rfl
      · rw [hnone]
        rfl
      · exact fun _ hmem => absurd hmem List.not_mem_nil
      · rw [hnone]
        exact hcontent
    · have hlength : 0 < segment.length := List.length_pos_iff.mpr hnil
      have hwithinLength := congrArg List.length hwithin
      rw [List.length_append] at hwithinLength
      obtain ⟨p, hp, hholds⟩ := hsegment.held hnil
      obtain ⟨s', segments, hdrain, hl, hflatten, hsizes, hcontent'⟩ := ih hs₁ (by omega)
      refine ⟨s', segment :: segments, ?_, hl, ?_, ?_, ?_⟩
      · rw [BufferedStream.drain, hread, ok_bind]
        simp only [if_neg (Nat.ne_of_gt hlength), hp, hholds.load, hdrain]
        rfl
      · rw [List.flatten_cons, hflatten, hwithin]
      · intro segment' hmem
        obtain rfl | hmem := List.mem_cons.mp hmem
        · exact hsize
        · exact hsizes segment' hmem
      · rw [hcontent', hcontent, hprev, List.drop_drop, hwithinLength]

/-- What is behind the limit. -/
theorem drop_within (limit : Limit) (bytes : List UInt8) :
    bytes.drop (Spec.Limit.take limit bytes).length = Spec.Limit.drop limit bytes := by
  unfold Spec.Limit.take Spec.Limit.drop
  split
  · exact List.drop_length
  · rw [List.drop_eq_drop_iff, List.length_take]
    omega

theorem drainAll_eq (hl : PushedList h l) (readers : List (BufSize × Limit)) {fuel : Nat}
    (hfuel : (content h l).length < fuel) :
    ∃ h' l' segments, BufferedStream.drainAll fuel readers h l = .ok (h', l', segments) ∧
      (segments.map List.flatten, content h' l') = split (readers.map Prod.snd) (content h l) ∧
      List.Forall₂ (fun reader segments => ∀ segment ∈ segments, (segment.length : Int) ≤ reader.1.val)
        readers segments := by
  induction readers generalizing h l with
  | nil => exact ⟨h, l, [], rfl, rfl, .nil⟩
  | cons reader readers ih =>
    obtain ⟨bufsize, limit⟩ := reader
    obtain ⟨hs, hwithin⟩ := reading_create hl bufsize.toStreamSize limit
    have hshort : (Spec.Limit.take limit (content h l)).length ≤ (content h l).length := by
      unfold Spec.Limit.take
      split
      · exact Nat.le_refl _
      · exact List.length_take_le' _ _
    rw [← hwithin] at hshort
    obtain ⟨s', segments, hdrain, hl', hflatten, hsizes, hcontent⟩ :=
      hs.drain bufsize.pos bufsize.max (Nat.lt_of_le_of_lt hshort hfuel)
    have hrest : content s'.heap s'.memoryStream = Spec.Limit.drop limit (content h l) := by
      have hstart := (hl.toListOk.alloc (List.replicate BUFFER_SIZE 0)).2
      rw [hcontent, hwithin, ← drop_within]
      simp only [BufferedStream.create, hstart, Nat.zero_add]
    have hle : (content s'.heap s'.memoryStream).length ≤ (content h l).length := by
      rw [hrest, ← drop_within, List.length_drop]
      exact Nat.sub_le _ _
    obtain ⟨h'', l'', rest, hreaders, hsplit, hrestSizes⟩ := ih hl' (by omega)
    refine ⟨h'', l'', segments :: rest, ?_, ?_, .cons hsizes hrestSizes⟩
    · rw [BufferedStream.drainAll, hdrain, ok_bind]
      simp only [hreaders]
      rfl
    · rw [hrest] at hsplit
      simp only [List.map_cons, split, ← hsplit, hflatten, hwithin]

/-- **Readers with limits partition the stream.** Each gets the next bytes
up to its limit, in segments no longer than its buffer size, and removes
them. The loops end: `fuel` is the number of calls that a reader may make. -/
theorem limited_readers (chunks : List (List UInt8)) (readers : List (BufSize × Limit)) (more : Nat) :
    ∃ h l segments,
      BufferedStream.drainAll (chunks.flatten.length + 1 + more) readers (BufferedStream.pushed chunks).1
        (BufferedStream.pushed chunks).2 = .ok (h, l, segments) ∧
      (segments.map List.flatten, content h l) = split (readers.map Prod.snd) chunks.flatten ∧
      List.Forall₂ (fun reader segments => ∀ segment ∈ segments, (segment.length : Int) ≤ reader.1.val)
        readers segments := by
  obtain ⟨hl, hcontent⟩ := pushed_eq chunks
  have hfuel : (content (BufferedStream.pushed chunks).1 (BufferedStream.pushed chunks).2).length <
      chunks.flatten.length + 1 + more := by
    rw [hcontent]
    omega
  have hall := drainAll_eq hl readers hfuel
  rwa [hcontent] at hall

end Efio.Proofs.Evds
