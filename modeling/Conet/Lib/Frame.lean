/- Module: Conet/Lib/Frame
   source: none (library)
   digest: Streams of byte strings with their lengths in front of them. -/

import Conet.Lib.Bytes

set_option autoImplicit false
set_option relaxedAutoImplicit false

namespace Conet.Lib.Frame

/-- The length of a payload in four bytes, most significant first, and the payload. -/
def frame (p : List UInt8) : List UInt8 := beBytes 4 p.length ++ p

def stream (ps : List (List UInt8)) : List UInt8 := ps.flatMap frame

/-- The length that the first four bytes announce. -/
def announced (bs : List UInt8) : ℕ := beNat (bs.take 4)

def Unfinished (bs : List UInt8) : Prop := bs.length < 4 ∨ bs.length < 4 + announced bs

instance (bs : List UInt8) : Decidable (Unfinished bs) :=
  inferInstanceAs (Decidable (bs.length < 4 ∨ bs.length < 4 + announced bs))

/-- Payloads whose length fits the four bytes. -/
def Short (p : List UInt8) : Prop := p.length < 2 ^ 32

variable {p p' bs rest rest' more : List UInt8} {ps ps' : List (List UInt8)}

@[simp] theorem frame_length (p : List UInt8) : (frame p).length = 4 + p.length := by
  simp [frame]

theorem frame_ne_nil (p : List UInt8) : frame p ≠ [] := by
  intro none
  have length := frame_length p
  simp only [none, List.length_nil] at length
  omega

@[simp] theorem stream_nil : stream [] = [] := rfl

@[simp] theorem stream_cons (p : List UInt8) (ps : List (List UInt8)) :
    stream (p :: ps) = frame p ++ stream ps := rfl

@[simp] theorem stream_append (ps ps' : List (List UInt8)) :
    stream (ps ++ ps') = stream ps ++ stream ps' := List.flatMap_append

theorem announced_lt (bs : List UInt8) : announced bs < 2 ^ 32 := by
  have lt := beNat_lt (bs.take 4)
  have le : 256 ^ (bs.take 4).length ≤ 256 ^ 4 :=
    Nat.pow_le_pow_right (by simp) (List.length_take_le ..)
  simp only [announced]
  omega

theorem announced_append (le : 4 ≤ bs.length) (more : List UInt8) :
    announced (bs ++ more) = announced bs := by
  rw [announced, List.take_append_of_le_length le, announced]

@[simp] theorem announced_frame (short : Short p) (rest : List UInt8) :
    announced (frame p ++ rest) = p.length := by
  have four : (beBytes 4 p.length).length = 4 := beBytes_length ..
  rw [announced, frame, List.append_assoc, List.take_append_of_le_length (by omega),
    List.take_of_length_le (by omega), beNat_beBytes]
  exact Nat.mod_eq_of_lt short

theorem not_unfinished_frame (short : Short p) (rest : List UInt8) :
    ¬ Unfinished (frame p ++ rest) := by
  rw [Unfinished, announced_frame short, List.length_append, frame_length]
  omega

theorem beBytes_beNat (bs : List UInt8) : beBytes bs.length (beNat bs) = bs := by
  have digits := leBytes_leNat bs.reverse 0
  rw [List.length_reverse, List.replicate_zero, List.append_nil, Nat.add_zero] at digits
  rw [beBytes, beNat, digits, List.reverse_reverse]

theorem exists_frame (finished : ¬ Unfinished bs) : ∃ p rest, bs = frame p ++ rest ∧
    p.length = announced bs ∧ Short p := by
  simp only [Unfinished, not_or, not_lt] at finished
  obtain ⟨le, long⟩ := finished
  have length : ((bs.drop 4).take (announced bs)).length = announced bs := by
    rw [List.length_take, List.length_drop]
    omega
  have head : beBytes 4 (announced bs) = bs.take 4 := by
    have four : (bs.take 4).length = 4 := by
      rw [List.length_take]
      omega
    have digits := beBytes_beNat (bs.take 4)
    rwa [four] at digits
  refine ⟨(bs.drop 4).take (announced bs), (bs.drop 4).drop (announced bs), ?_, length, ?_⟩
  · rw [frame, length, head, List.append_assoc, List.take_append_drop, List.take_append_drop]
  · rw [Short, length]
    exact announced_lt bs

theorem frame_inj (short : Short p) (short' : Short p') (h : frame p ++ rest = frame p' ++ rest') :
    p = p' ∧ rest = rest' := by
  have length : p.length = p'.length := by
    rw [← announced_frame short rest, h, announced_frame short' rest']
  obtain ⟨heads, rests⟩ := List.append_inj h (by simp [length])
  exact ⟨(List.append_inj heads (by simp)).2, rests⟩

/-- When the first bytes of a stream have a frame, it is the first one of the stream. -/
theorem stream_first (short : ∀ p ∈ ps, Short p) (h : stream ps = bs ++ more)
    (finished : ¬ Unfinished bs) :
    ∃ p ps' rest, ps = p :: ps' ∧ bs = frame p ++ rest ∧ stream ps' = rest ++ more := by
  obtain ⟨p, rest, rfl, -, short'⟩ := exists_frame finished
  cases ps with
  | nil =>
    have length := congrArg List.length h
    simp at length
    omega
  | cons q qs =>
    rw [stream_cons, List.append_assoc] at h
    obtain ⟨rfl, tail⟩ := frame_inj (short q (by simp)) short' h
    exact ⟨q, qs, rest, rfl, rfl, tail⟩

/-- Bytes cut into frames and an unfinished rest. -/
structure Cut (bs : List UInt8) (ps : List (List UInt8)) (rest : List UInt8) : Prop where
  bytes : bs = stream ps ++ rest
  short : ∀ p ∈ ps, Short p
  unfinished : Unfinished rest

theorem Cut.unique (cut : Cut bs ps rest) (cut' : Cut bs ps' rest') : ps = ps' ∧ rest = rest' := by
  induction ps generalizing bs ps' with
  | nil =>
    cases ps' with
    | nil => exact ⟨rfl, cut.bytes.symm.trans cut'.bytes⟩
    | cons p' ps' =>
      have whole := not_unfinished_frame (cut'.short p' (by simp)) (stream ps' ++ rest')
      have same : frame p' ++ (stream ps' ++ rest') = rest := by
        rw [← List.append_assoc, ← stream_cons, ← cut'.bytes, cut.bytes]
        rfl
      rw [same] at whole
      exact absurd cut.unfinished whole
  | cons p ps ih =>
    have split : bs = frame p ++ (stream ps ++ rest) := by
      rw [cut.bytes, stream_cons, List.append_assoc]
    cases ps' with
    | nil =>
      have whole := not_unfinished_frame (cut.short p (by simp)) (stream ps ++ rest)
      rw [← split, cut'.bytes] at whole
      exact absurd cut'.unfinished whole
    | cons p' ps' =>
      have split' : bs = frame p' ++ (stream ps' ++ rest') := by
        rw [cut'.bytes, stream_cons, List.append_assoc]
      obtain ⟨rfl, tail⟩ := frame_inj (cut.short p (by simp)) (cut'.short p' (by simp))
        (split.symm.trans split')
      have short := fun q hq => cut.short q (List.mem_cons_of_mem _ hq)
      have short' := fun q hq => cut'.short q (List.mem_cons_of_mem _ hq)
      obtain ⟨rfl, rfl⟩ := ih ⟨rfl, short, cut.unfinished⟩ ⟨tail, short', cut'.unfinished⟩
      exact ⟨rfl, rfl⟩

theorem Cut.cons (short : Short p) (cut : Cut bs ps rest) : Cut (frame p ++ bs) (p :: ps) rest := by
  refine ⟨by rw [cut.bytes, stream_cons, List.append_assoc], fun q hq => ?_, cut.unfinished⟩
  rcases List.mem_cons.mp hq with rfl | hq
  · exact short
  · exact cut.short q hq

theorem Cut.tail (cut : Cut bs (p :: ps) rest) : Cut (stream ps ++ rest) ps rest :=
  ⟨rfl, fun q hq => cut.short q (List.mem_cons_of_mem _ hq), cut.unfinished⟩

theorem Cut.append (cut : Cut bs ps rest) (cut' : Cut (rest ++ more) ps' rest') :
    Cut (bs ++ more) (ps ++ ps') rest' := by
  refine ⟨?_, fun p hp => ?_, cut'.unfinished⟩
  · rw [cut.bytes, List.append_assoc, cut'.bytes, stream_append, List.append_assoc]
  · rcases List.mem_append.mp hp with hp | hp
    · exact cut.short p hp
    · exact cut'.short p hp

theorem exists_cut (bs : List UInt8) : ∃ ps rest, Cut bs ps rest := by
  induction h : bs.length using Nat.strong_induction_on generalizing bs with
  | _ n ih =>
    by_cases finished : Unfinished bs
    · exact ⟨[], bs, rfl, by simp, finished⟩
    · obtain ⟨p, rest, rfl, -, short⟩ := exists_frame finished
      rw [List.length_append, frame_length] at h
      obtain ⟨ps, rest', cut⟩ := ih rest.length (by omega) rest rfl
      exact ⟨p :: ps, rest', cut.cons short⟩

end Conet.Lib.Frame
