import Mathlib
import VerboseExpr.Proofs.Matcher.Quotation
import VerboseExpr.Proofs.Regex.Extent

/-!
The text of a match as a part of the subject. An engine finds a span of characters; the bytes between its ends are
those of its characters, whether or not they are well formed. Main statement: what is found is the slice of the
subject at its offset. An engine that gives back the characters it has read needs a subject of whole characters for
that.
-/

namespace VerboseExpr

namespace Utf8

theorem width_eq_sum (us : List Unit) : width us = (us.map (·.width)).sum := by
  induction us with
  | nil => rfl
  | cons u us ih => rw [width, ih, List.map_cons, List.sum_cons]

theorem length_flatMap_take (b : Bytes) (k : Nat) : (((units b).take k).flatMap (·.bytes)).length = offset b k := by
  rw [offset, width_eq_length]

theorem exists_append (b : Bytes) {start stop : Nat} (h : start ≤ stop) :
    ∃ before after, b = before ++ (((units b).take stop).drop start).flatMap (·.bytes) ++ after ∧
      before.length = offset b start ∧
      before.length + ((((units b).take stop).drop start).flatMap (·.bytes)).length = offset b stop := by
  have htake : (units b).take start ++ ((units b).take stop).drop start = (units b).take stop := by
    rw [← Nat.min_eq_left h, ← List.take_take, Nat.min_eq_left h, List.take_append_drop]
  have hbytes := congrArg (List.flatMap (·.bytes)) htake
  rw [List.flatMap_append] at hbytes
  refine ⟨((units b).take start).flatMap (·.bytes), ((units b).drop stop).flatMap (·.bytes), ?_, ?_, ?_⟩
  . rw [hbytes, ← List.flatMap_append, List.take_append_drop, flatMap_bytes_units]
  . exact length_flatMap_take b start
  . rw [← List.length_append, hbytes, length_flatMap_take]

end Utf8

namespace Matcher

open Utf8

theorem matchText_eq {engine : Engine} {subject : Bytes} (hvalid : engine = .backtracking → isValid subject)
    (start stop : Nat) :
    matchText engine (units subject) start stop = (((units subject).take stop).drop start).flatMap (·.bytes) := by
  cases engine with
  | automaton => rfl
  | backtracking =>
    -- a byte that is part of no character would be written as the replacement character, which is longer
    have hbytes : ∀ u ∈ units subject, Bytes.ofChar u.char = u.bytes := by
      intro u hu
      obtain heq | ⟨c, rfl⟩ := of_mem_units hu
      . rw [heq]
      . exact absurd (List.all_eq_true.1 (hvalid rfl) _ hu) (by simp [Utf8.Unit.bad])
    rw [matchText, Bytes.ofChars, List.flatMap_map]
    apply List.flatMap_congr
    intro u hu
    exact hbytes u (List.mem_of_mem_take (List.mem_of_mem_drop hu))

theorem exists_span {m : Matcher} {subject : Bytes} (h : (m.find subject).found) :
    ∃ start stop, start ≤ stop ∧ stop ≤ count subject ∧
      m.find subject =
        ⟨true, offset subject start, matchText m.engine (units subject) start stop, m.engine⟩ := by
  have hsize : ((units subject).map (·.char)).toArray.size = count subject := by
    rw [List.size_toArray, List.length_map, count]
  generalize hr : m.find subject = r at h ⊢
  rw [find] at hr
  split at hr
  . rw [← hr] at h
    contradiction
  . next start stop hspan =>
    have hextent : start ≤ stop ∧ stop ≤ ((units subject).map (·.char)).toArray.size := by
      split at hspan
      . exact Regex.Automaton.le_of_find? hspan
      . exact Regex.Backtracking.le_of_find? hspan
    rw [hsize] at hextent
    rw [matchOffset_eq] at hr
    exact ⟨start, stop, hextent.1, hextent.2, hr.symm⟩

/-- A match goes from one character of the subject to another, and its text is what stands there. The offset of a
character is what the characters before it add up to, each byte that is part of none being one of them; a later
character has a greater offset, and past the last one the offset is the length of the subject. -/
theorem find_isSlice :
    (∀ (m : Matcher) (subject : Bytes), (m.engine = .backtracking → isValid subject) → (m.find subject).found →
      let r := m.find subject
      r.offset + r.text.length ≤ subject.length ∧ (subject.drop r.offset).take r.text.length = r.text ∧
        ∃ start stop, start ≤ stop ∧ stop ≤ (units subject).length ∧ r.offset = byteOffset subject start ∧
          r.offset + r.text.length = byteOffset subject stop) ∧
    ∀ s : Bytes, (units s).flatMap (·.bytes) = s ∧ (∀ u ∈ units s, u.valid = false → u.width = 1) ∧
      (∀ k, byteOffset s k = (((units s).take k).map (·.width)).sum) ∧
      (∀ j k, j < k → k ≤ (units s).length → byteOffset s j < byteOffset s k) ∧
      ∀ k, (units s).length ≤ k → byteOffset s k = s.length := by
  refine ⟨?_, ?_⟩
  . intro m subject hvalid hfound
    obtain ⟨start, stop, hle, hstop, hfind⟩ := exists_span hfound
    -- the subject is what precedes the match, the match, and what follows
    obtain ⟨before, after, hsubject, hstart, hend⟩ := exists_append subject hle
    rw [← matchText_eq hvalid] at hsubject hend
    rw [hfind]
    dsimp only
    refine ⟨?_, ?_, start, stop, hle, hstop, (byteOffset_eq subject start).symm, ?_⟩
    . have hlength := congrArg List.length hsubject
      rw [List.length_append, List.length_append] at hlength
      omega
    . rw [← hstart]
      generalize matchText m.engine (units subject) start stop = text at hsubject
      rw [hsubject, List.append_assoc, List.drop_left, List.take_left]
    . rw [← hstart, hend, byteOffset_eq]
  . intro s
    refine ⟨flatMap_bytes_units s, fun u hu => width_of_not_valid hu, ?_, fun j k => byteOffset_lt,
      fun k => byteOffset_of_count_le⟩
    intro k
    rw [byteOffset_eq, offset, width_eq_sum]

def twice : Matcher := ⟨"(é)\\1", .backtracking, .cat (.group 1 (.char 'é')) (.reference 1)⟩

theorem find_isSlice_reference :
    let subject := Bytes.ofString "aéé"
    let r := twice.find subject
    make twice.pattern .auto = .ok twice ∧ (twice.engine = .backtracking → isValid subject) ∧ r.found ∧ r.text = "éé" ∧
      r.offset + r.text.length ≤ subject.length ∧ (subject.drop r.offset).take r.text.length = r.text ∧
      byteOffset subject 1 < byteOffset subject 3 ∧ byteOffset subject 3 = subject.length := by
  intro subject r
  have hmake : make twice.pattern .auto = .ok twice := by cbv
  have hvalid : twice.engine = .backtracking → isValid subject := fun _ => by decide +kernel
  have hfind : twice.find subject = ⟨true, 1, "éé", .backtracking⟩ := by decide +kernel
  have hfound : (twice.find subject).found := by rw [hfind]
  have htext : (twice.find subject).text = "éé" := by rw [hfind]
  have hcount : (units subject).length = 3 := by decide +kernel
  obtain ⟨hslice, hoffset⟩ := find_isSlice
  obtain ⟨hbound, htake, -⟩ := hslice twice subject hvalid hfound
  obtain ⟨-, -, -, hlt, hend⟩ := hoffset subject
  exact ⟨hmake, hvalid, hfound, htext, hbound, htake, hlt 1 3 (by decide) (Nat.le_of_eq hcount.symm),
    hend 3 (Nat.le_of_eq hcount)⟩

end Matcher

end VerboseExpr
