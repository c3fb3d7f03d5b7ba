/- Module: Conet/Base/NetToolRead
   source: base/src/net_tool.cpp, base/net_tool.h
   digest: What the two functions read_packet and next_packet do with the bytes of a stream. -/

import Conet.Base.NetTool

set_option autoImplicit false
set_option relaxedAutoImplicit false

namespace Conet.Base.NetToolRead

open Conet.Lib Conet.Lib.Frame Conet.Base.Pbc Conet.Base.NetTool

/-- The buffer starts with the bytes `bs`, which were received. -/
structure Holds (b : Buffer) (bs : List UInt8) : Prop where
  curLen : b.curLen = bs.length
  bytes : slice b.mem 0 bs.length = bs

/-- Every `recv` is asked for some bytes, and there is room for them. -/
def AsksOk (maxSize : ℤ) (asks : List (ℤ × ℤ)) : Prop :=
  ∀ ask ∈ asks, 0 ≤ ask.1 ∧ 0 < ask.2 ∧ ask.1 + ask.2 ≤ maxSize

/-- The data that the system calls of a script bring, up to the rest of it. -/
inductive Gets (r : Reader) : Bool → List Attempt → List UInt8 → List Attempt → Prop
  | nil {hasData : Bool} {script : List Attempt} : Gets r hasData script [] script
  | cons {hasData : Bool} {a : Attempt} {script script' : List Attempt} {chunk got : List UInt8} :
    r.read hasData a = .data chunk → r.late a = false → Gets r false script got script' →
    Gets r hasData (a :: script) (chunk ++ got) script'

/-- The data that the system calls of a script bring up to the one that fails, or after which the
deadline has passed. -/
inductive Stops (r : Reader) : Bool → List Attempt → ℤ → List UInt8 → Prop
  | fails {hasData : Bool} {a : Attempt} {script : List Attempt} {ret : ℤ} :
    r.read hasData a = .fails ret → Stops r hasData (a :: script) ret []
  | late {hasData : Bool} {a : Attempt} {script : List Attempt} {chunk : List UInt8} :
    r.read hasData a = .data chunk → r.late a = true → Stops r hasData (a :: script) (-2) chunk
  | cons {hasData : Bool} {a : Attempt} {script : List Attempt} {ret : ℤ} {chunk got : List UInt8} :
    r.read hasData a = .data chunk → r.late a = false → Stops r false script ret got →
    Stops r hasData (a :: script) ret (chunk ++ got)

/-- How a loop of `read_packet` ends. -/
def Meets (f : Fill) (full : Buffer → List Attempt → Prop) (fails : ℤ → Buffer → Prop)
    (waits : Buffer → Prop) : Prop :=
  match f with
  | .full b script => full b script
  | .fails ret b _ => fails ret b
  | .waits b => waits b
  | .impossible => True

theorem Meets.imp {f : Fill} {full full' : Buffer → List Attempt → Prop}
    {fails fails' : ℤ → Buffer → Prop} {waits waits' : Buffer → Prop} (meets : Meets f full fails waits)
    (h₁ : ∀ b script, full b script → full' b script) (h₂ : ∀ ret b, fails ret b → fails' ret b)
    (h₃ : ∀ b, waits b → waits' b) : Meets f full' fails' waits' := by
  cases f with
  | full b script => exact h₁ b script meets
  | fails ret b script => exact h₂ ret b meets
  | waits b => exact h₃ b meets
  | impossible => trivial

section Fill

variable {r : Reader} {maxSize need : ℤ} {hasData : Bool} {script : List Attempt} {b : Buffer}
  {bs chunk : List UInt8} {asks : List (ℤ × ℤ)} {a : Attempt}

theorem slice_append (mem : ℤ → UInt8) (start : ℤ) {bs cs : List UInt8}
    (first : slice mem start bs.length = bs)
    (second : slice mem (start + bs.length) cs.length = cs) :
    slice mem start (bs ++ cs).length = bs ++ cs := by
  rw [List.length_append, slice_add, first, second]

/-- Received bytes stand behind the ones before them. -/
theorem Holds.write (holds : Holds b bs) (chunk : List UInt8) (asks : List (ℤ × ℤ))
    (got : List UInt8) :
    Holds ⟨write b.mem b.curLen chunk, b.curLen + chunk.length, asks, got⟩ (bs ++ chunk) := by
  refine ⟨by simp [holds.curLen], slice_append _ 0 ?_ ?_⟩
  · rw [slice_write_of_le (by simp [holds.curLen])]
    exact holds.bytes
  · rw [holds.curLen, zero_add]
    exact slice_write ..

theorem AsksOk.snoc (ok : AsksOk maxSize b.asks) (holds : Holds b bs) (lt : b.curLen < need)
    (room : need ≤ maxSize) : AsksOk maxSize (b.asks ++ [(b.curLen, maxSize - b.curLen)]) := by
  intro ask hask
  rcases List.mem_append.mp hask with hask | hask
  · exact ok ask hask
  · obtain rfl := List.mem_singleton.mp hask
    have cur := holds.curLen
    simp only
    omega

theorem write_append (mem : ℤ → UInt8) (start : ℤ) (bs cs : List UInt8) :
    write (write mem start bs) (start + bs.length) cs = write mem start (bs ++ cs) := by
  funext i
  simp only [write, List.length_append, Nat.cast_add]
  by_cases low : start ≤ i ∧ i < start + bs.length
  · have index : (i - start).toNat < bs.length := by omega
    rw [if_neg (by omega), if_pos low, if_pos (by omega)]
    simp [List.getD_eq_getElem?_getD, List.getElem?_append_left index]
  · by_cases high : start + bs.length ≤ i ∧ i < start + bs.length + cs.length
    · have index : (i - start).toNat - bs.length = (i - (start + bs.length)).toNat := by omega
      have ge : bs.length ≤ (i - start).toNat := by omega
      rw [if_pos high, if_pos (by omega)]
      simp [List.getD_eq_getElem?_getD, List.getElem?_append_right ge, index]
    · rw [if_neg high, if_neg low, if_neg (by omega)]

@[simp] theorem write_nil (mem : ℤ → UInt8) (start : ℤ) : write mem start [] = mem := by
  funext i
  simp [write]

/-- The loops of `read_packet`: what they receive follows the bytes in the buffer. -/
theorem fill_meets (holds : Holds b bs) (ok : AsksOk maxSize b.asks) (room : need ≤ maxSize)
    (le : b.curLen ≤ maxSize) :
    Meets (fill r maxSize need hasData script b)
      (fun b' script' => ∃ got, Gets r hasData script got script' ∧ Holds b' (bs ++ got) ∧
        need ≤ b'.curLen ∧ b'.curLen ≤ maxSize ∧ AsksOk maxSize b'.asks ∧
        b'.mem = write b.mem b.curLen got ∧ b'.got = b.got ++ got)
      (fun ret b' => ∃ got, Stops r hasData script ret got ∧ Holds b' (bs ++ got) ∧
        b.curLen < need ∧ b'.mem = write b.mem b.curLen got ∧ b'.got = b.got ++ got ∧
        AsksOk maxSize b'.asks)
      (fun b' => ∃ got, Gets r hasData script got [] ∧ Holds b' (bs ++ got) ∧ b'.curLen < need ∧
        AsksOk maxSize b'.asks) := by
  induction script generalizing hasData b bs with
  | nil =>
    rw [fill]
    split
    case isTrue enough =>
      exact ⟨[], .nil, by simpa using holds, enough, le, ok, by simp, by simp⟩
    case isFalse more => exact ⟨[], .nil, by simpa using holds, by omega, ok⟩
  | cons a script ih =>
    rw [fill]
    split
    case isTrue enough =>
      exact ⟨[], .nil, by simpa using holds, enough, le, ok, by simp, by simp⟩
    case isFalse more =>
      have asks := ok.snoc holds (by omega) room
      cases read : r.read hasData a with
      | fails ret =>
        exact ⟨[], .fails read, by simpa using ⟨holds.curLen, holds.bytes⟩, by omega, by simp,
          by simp, asks⟩
      | data chunk =>
        simp only
        split
        case isFalse => trivial
        case isTrue fits =>
          have holds' := holds.write chunk (b.asks ++ [(b.curLen, maxSize - b.curLen)])
            (b.got ++ chunk)
          cases late : r.late a with
          | true => exact ⟨chunk, .late read late, holds', by omega, rfl, rfl, asks⟩
          | false =>
            simp only [Bool.false_eq_true, if_false]
            have rest : Meets (fill r maxSize need false script _) _ _ _ :=
              ih holds' asks (by simp only; omega)
            refine rest.imp ?_ ?_ ?_
            · rintro b' script' ⟨got, gets, holds, enough, le, asks, mem, all⟩
              simp only [write_append] at mem
              exact ⟨chunk ++ got, .cons read late gets, by simpa using holds, enough, le, asks, mem,
                by simpa using all⟩
            · rintro ret b' ⟨got, stops, holds, -, mem, all, asks⟩
              simp only [write_append] at mem
              exact ⟨chunk ++ got, .cons read late stops, by simpa using holds, by omega, mem,
                by simpa using all, asks⟩
            · rintro b' ⟨got, gets, holds, less, asks⟩
              exact ⟨chunk ++ got, .cons read late gets, by simpa using holds, less, asks⟩

end Fill

/-- The bytes that the last `recv` of an attempt brings. -/
def chunk (a : Attempt) : List UInt8 :=
  match a.recv with
  | .data bs => bs
  | _ => []

/-- One `recv` of an attempt finds something: the early one, or else the one after `poll`. -/
def Once (a : Attempt) : Prop := a.early = .again ∨ a.early = a.recv

/-- The system calls bring data, and no deadline has passed. -/
structure Fine (a : Attempt) : Prop where
  recv : a.recv = .data (chunk a)
  some : chunk a ≠ []
  poll : a.poll = .pollIn
  late : a.late = false
  early : Once a

/-- A `recv` that brings all of `bs`. -/
def brings (bs : List UInt8) : Attempt := ⟨.again, .pollIn, .data bs, false⟩

theorem fine_brings {bs : List UInt8} (some : bs ≠ []) : Fine (brings bs) :=
  ⟨rfl, some, rfl, rfl, .inl rfl⟩

/-- The bytes that the system calls of a script bring. -/
def bytesOf (script : List Attempt) : List UInt8 := script.flatMap chunk

/-- The two functions `read_packet`, the first one with its `has_data`. -/
inductive Overload
  | timeout (hasData : Bool)
  | plain

def Overload.reader : Overload → Reader
  | .timeout _ => withTimeout
  | .plain => NetTool.plain

def Overload.hasData : Overload → Bool
  | .timeout hasData => hasData
  | .plain => false

def Overload.read (o : Overload) (s : PacketStream) (script : List Attempt) : ReadOut :=
  match o with
  | .timeout hasData => readPacketTimeout hasData s script
  | .plain => readPacket s script

/-- The bytes `bs` of a stream have been received and not been returned yet. -/
structure Held (s : PacketStream) (bs : List UInt8) : Prop where
  start : 0 ≤ s.prevPos
  total : s.totalLen = s.prevPos + bs.length
  fits : s.totalLen ≤ s.maxSize
  bytes : slice s.mem s.prevPos bs.length = bs
  fresh : s.prevPos = 0 → bs = []

section Read

variable {o : Overload} {s : PacketStream} {bs got : List UInt8} {script script' : List Attempt}
  {a : Attempt} {hasData : Bool} {b : Buffer}

theorem Overload.read_eq (o : Overload) (s : PacketStream) (script : List Attempt) :
    o.read s script = readPacketWith o.reader o.hasData s script := by
  cases o <;> rfl

theorem result_data {r : Recv} {chunk : List UInt8} (read : r.result = .data chunk) :
    r = .data chunk ∧ chunk ≠ [] := by
  cases r with
  | data bs =>
    cases bs with
    | nil => simp [Recv.result] at read
    | cons c cs =>
      obtain rfl : c :: cs = chunk := by simpa [Recv.result] using read
      simp
  | closed => simp [Recv.result] at read
  | again => simp [Recv.result] at read
  | failed => simp [Recv.result] at read

/-- Data that comes is some bytes, and comes with the early `recv` or after `poll`. -/
theorem read_data {chunk : List UInt8} (read : o.reader.read hasData a = .data chunk) :
    (a.recv = .data chunk ∨ a.early ≠ .again ∧ a.early = .data chunk) ∧ chunk ≠ [] := by
  cases o with
  | plain => exact ⟨.inl (result_data read).1, (result_data read).2⟩
  | timeout =>
    simp only [Overload.reader, withTimeout, readTimeout] at read
    split at read
    case isTrue first => exact ⟨.inr ⟨first.2, (result_data read).1⟩, (result_data read).2⟩
    case isFalse =>
      cases poll : a.poll with
      | pollIn =>
        rw [poll] at read
        exact ⟨.inl (result_data read).1, (result_data read).2⟩
      | timeout => simp [poll] at read
      | failed => simp [poll] at read
      | pollErr => simp [poll] at read
      | other => simp [poll] at read

theorem Once.data {bs : List UInt8} (once : Once a) (read : o.reader.read hasData a = .data bs) :
    bs = chunk a := by
  have recv : a.recv = .data bs := by
    rcases (read_data read).1 with recv | ⟨found, early⟩
    · exact recv
    · rw [← once.resolve_left found, early]
  rw [chunk, recv]

theorem Fine.reads (fine : Fine a) (o : Overload) (hasData : Bool) :
    o.reader.read hasData a = .data (chunk a) ∧ o.reader.late a = false := by
  have recv : a.recv.result = .data (chunk a) := by
    have some := fine.some
    rw [fine.recv]
    cases h : chunk a with
    | nil => exact absurd h some
    | cons b bs => rfl
  cases o with
  | plain => exact ⟨recv, rfl⟩
  | timeout =>
    refine ⟨?_, fine.late⟩
    simp only [Overload.reader, withTimeout, readTimeout, fine.poll]
    split
    case isTrue h =>
      rw [fine.early.resolve_left h.2]
      exact recv
    case isFalse => exact recv

/-- The bytes `got` come with the first system calls of a script, and `script'` is the rest. -/
def Brings (script : List Attempt) (got : List UInt8) (script' : List Attempt) : Prop :=
  ∃ used, script = used ++ script' ∧ bytesOf used = got

theorem bytesOf_append (script script' : List Attempt) :
    bytesOf (script ++ script') = bytesOf script ++ bytesOf script' := List.flatMap_append

theorem Brings.bytes (brings : Brings script got script') :
    bytesOf script = got ++ bytesOf script' := by
  obtain ⟨used, rfl, rfl⟩ := brings
  exact bytesOf_append used script'

theorem Brings.sub (brings : Brings script got script') (a : Attempt) (ha : a ∈ script') :
    a ∈ script := by
  obtain ⟨used, rfl, -⟩ := brings
  exact List.mem_append_right used ha

theorem Brings.trans {got' : List UInt8} {script'' : List Attempt}
    (first : Brings script got script') (second : Brings script' got' script'') :
    Brings script (got ++ got') script'' := by
  obtain ⟨used, rfl, rfl⟩ := first
  obtain ⟨used', rfl, rfl⟩ := second
  exact ⟨used ++ used', by simp, bytesOf_append used used'⟩

theorem gets_brings (gets : Gets o.reader hasData script got script')
    (once : ∀ a ∈ script, Once a) : Brings script got script' := by
  induction gets with
  | nil => exact ⟨[], rfl, rfl⟩
  | @cons hasData a script script' bs got read late gets ih =>
    obtain rfl := (once a (by simp)).data read
    have first : Brings (a :: script) (chunk a) script := ⟨[a], rfl, by simp [bytesOf]⟩
    exact first.trans (ih fun a ha => once a (List.mem_cons_of_mem _ ha))

theorem fine_gets (fine : ∀ a ∈ script, Fine a) : Gets o.reader hasData script (bytesOf script) [] := by
  induction script generalizing hasData with
  | nil => exact .nil
  | cons a script ih =>
    obtain ⟨read, late⟩ := (fine a (by simp)).reads o hasData
    exact .cons read late (ih fun b hb => fine b (List.mem_cons_of_mem _ hb))

theorem Gets.trans {r : Reader} {got' : List UInt8} {script'' : List Attempt}
    (first : Gets r hasData script got script') (second : Gets r false script' got' script'')
    (same : got = [] → hasData = false) : Gets r hasData script (got ++ got') script'' := by
  induction first with
  | nil =>
    rw [same rfl]
    exact second
  | cons read late gets ih =>
    rw [List.append_assoc]
    exact .cons read late (ih second fun _ => rfl)

theorem Gets.stops {r : Reader} {got' : List UInt8} {ret : ℤ} (first : Gets r hasData script got script')
    (second : Stops r false script' ret got') (same : got = [] → hasData = false) :
    Stops r hasData script ret (got ++ got') := by
  induction first with
  | nil =>
    rw [same rfl]
    exact second
  | cons read late gets ih =>
    rw [List.append_assoc]
    exact .cons read late (ih second fun _ => rfl)

theorem Gets.used {r : Reader} (gets : Gets r hasData script got script') :
    ∃ group, script = group ++ script' ∧ Gets r hasData group got [] := by
  induction gets with
  | nil => exact ⟨[], rfl, .nil⟩
  | @cons _ a _ _ _ _ read late gets ih =>
    obtain ⟨group, split, used⟩ := ih
    exact ⟨a :: group, by rw [split, List.cons_append], .cons read late used⟩

/-- Where everything comes, a part of it comes first. -/
theorem Gets.split {r : Reader} {whole : List UInt8} (part : Gets r hasData script got script')
    (all : Gets r hasData script whole []) :
    ∃ hasData' more, Gets r hasData' script' more [] ∧ whole = got ++ more := by
  induction part generalizing whole with
  | nil => exact ⟨_, whole, all, rfl⟩
  | cons read late gets ih =>
    cases all with
    | cons read' late' all =>
      obtain rfl := ReadResult.data.inj (read.symm.trans read')
      obtain ⟨hasData', more, rest, rfl⟩ := ih all
      exact ⟨hasData', more, rest, by simp⟩

theorem Gets.not_stops {r : Reader} {whole : List UInt8} {ret : ℤ}
    (all : Gets r hasData script whole []) : ¬ Stops r hasData script ret got := by
  intro stops
  induction stops generalizing whole with
  | fails read =>
    cases all with
    | cons read' late' all => exact absurd (read.symm.trans read') (by simp)
  | late read late =>
    cases all with
    | cons read' late' all => exact absurd (late.symm.trans late') (by simp)
  | cons read late stops ih =>
    cases all with
    | cons read' late' all => exact ih all

/-- No data comes only where there is no system call left. -/
theorem Gets.nil_of_nil (all : Gets o.reader hasData script got []) (none : got = []) :
    script = [] := by
  cases all with
  | nil => rfl
  | cons read late gets => exact absurd (List.append_eq_nil_iff.mp none).1 (read_data read).2

theorem not_stops (fine : ∀ a ∈ script, Fine a) {ret : ℤ} :
    ¬ Stops o.reader hasData script ret got := by
  intro stops
  induction stops with
  | @fails hasData a script ret read =>
    have reads := ((fine a (by simp)).reads o hasData).1
    simp [read] at reads
  | @late hasData a script bs read late =>
    have reads := ((fine a (by simp)).reads o hasData).2
    simp [late] at reads
  | cons _ _ _ ih => exact ih fun a ha => fine a (List.mem_cons_of_mem _ ha)

theorem Held.count (held : Held s bs) : (s.totalLen - s.prevPos).toNat = bs.length := by
  have total := held.total
  omega

theorem Held.compact (held : Held s bs) : Holds (compact s) bs ∧ (compact s).asks = [] := by
  have total := held.total
  simp only [NetTool.compact]
  split
  case isTrue =>
    refine ⟨⟨by simp only; omega, ?_⟩, rfl⟩
    rw [held.count, held.bytes]
    exact slice_write ..
  case isFalse zero =>
    have start := held.start
    obtain rfl := held.fresh (by omega)
    exact ⟨⟨rfl, rfl⟩, rfl⟩

/-- A length that `read_packet` does not take, or bytes that it takes for an http request. -/
def Refused (s : PacketStream) (bs : List UInt8) : Prop :=
  4 ≤ bs.length ∧ (announced bs = 0 ∨ s.maxSize < announced bs + 4 ∨
    (s.isHttp = true ∧ ∃ c ∈ bs.head?, isAlpha c = true))

theorem refused_append (four : 4 ≤ bs.length) (more : List UInt8) :
    Refused s (bs ++ more) ↔ Refused s bs := by
  have head : (bs ++ more).head? = bs.head? := by
    cases bs with
    | nil => simp at four
    | cons b bs => rfl
  rw [Refused, Refused, announced_append four, head, List.length_append]
  simp only [four, true_and, and_iff_right_iff_imp]
  omega

/-- A packet has been returned: the first frame of the bytes held and of those received. -/
structure Took (r : Reader) (hasData : Bool) (s : PacketStream) (bs : List UInt8)
    (script : List Attempt) (out : ReadOut) (p got rest : List UInt8) : Prop where
  gets : Gets r hasData script got out.script
  frame : bs ++ got = frame p ++ rest
  pack : out.pack = Option.some (4, (p.length : ℤ))
  here : slice out.stream.mem 4 p.length = p
  inside : 4 + p.length ≤ out.stream.totalLen
  held : Held out.stream rest
  maxSize : out.stream.maxSize = s.maxSize
  isHttp : out.stream.isHttp = s.isHttp
  some : 0 < p.length
  unrefused : ¬ Refused s (bs ++ got)

theorem Took.brings {out : ReadOut} {p rest : List UInt8}
    (took : Took o.reader hasData s bs script out p got rest) (once : ∀ a ∈ script, Once a) :
    Brings script got out.script := gets_brings took.gets once

structure Reads (r : Reader) (hasData : Bool) (s : PacketStream) (bs : List UInt8)
    (script : List Attempt) (out : ReadOut) : Prop where
  asks : AsksOk s.maxSize out.asks
  waits : out.outcome = .waits →
    out.pack = none ∧ ∃ got, Gets r hasData script got [] ∧ Unfinished (bs ++ got)
  failed : ∀ ret, out.outcome = .failed ret → ∃ got, Stops r hasData script ret got
  undefined : out.outcome = .undefined →
    ∃ got script', Gets r hasData script got script' ∧ Refused s (bs ++ got)
  returns : ∀ ret, out.outcome = .returned ret →
    (ret = 1 ∧ ∃ p got rest, Took r hasData s bs script out p got rest) ∨
    (ret < 0 ∧ ∃ got script', Gets r hasData script got script' ∧ Refused s (bs ++ got))

theorem Reads.after {r : Reader} {out : ReadOut} (reads : Reads r false s (bs ++ got) script' out)
    (gets : Gets r hasData script got script') (same : got = [] → hasData = false) :
    Reads r hasData s bs script out := by
  refine ⟨reads.asks, fun waits => ?_, fun ret failed => ?_, fun undefined => ?_,
    fun ret returned => ?_⟩
  · obtain ⟨none, got', gets', unfinished⟩ := reads.waits waits
    rw [List.append_assoc] at unfinished
    exact ⟨none, got ++ got', gets.trans gets' same, unfinished⟩
  · obtain ⟨got', stops⟩ := reads.failed ret failed
    exact ⟨got ++ got', gets.stops stops same⟩
  · obtain ⟨got', script'', gets', refused⟩ := reads.undefined undefined
    rw [List.append_assoc] at refused
    exact ⟨got ++ got', script'', gets.trans gets' same, refused⟩
  · rcases reads.returns ret returned with ⟨one, p, got', rest, took⟩ | ⟨other, got', script'', gets', refused⟩
    · have frame := took.frame
      have unrefused := took.unrefused
      rw [List.append_assoc] at frame unrefused
      exact .inl ⟨one, p, got ++ got', rest, gets.trans took.gets same, frame, took.pack, took.here,
        took.inside, took.held, took.maxSize, took.isHttp, took.some, unrefused⟩
    · rw [List.append_assoc] at refused
      exact .inr ⟨other, got ++ got', script'', gets.trans gets' same, refused⟩

theorem fill_enough {r : Reader} {maxSize need : ℤ} (enough : need ≤ b.curLen) :
    fill r maxSize need hasData script b = .full b script := by
  cases script with
  | nil => exact if_pos enough
  | cons a script => exact if_pos enough

theorem announced_slice {mem : ℤ → UInt8} {start : ℤ} (le : 4 ≤ bs.length)
    (bytes : slice mem start bs.length = bs) : announced (slice mem start 4) = announced bs := by
  have part := slice_part mem start (i := 0) (n := 4) (l := bs.length) (by omega)
  rw [bytes, List.drop_zero, Nat.cast_zero, add_zero] at part
  rw [part, announced, List.take_take, announced]
  rfl

theorem frame_here {mem : ℤ → UInt8} {p rest : List UInt8}
    (bytes : slice mem 0 bs.length = bs) (split : bs = frame p ++ rest) :
    slice mem 4 p.length = p ∧ slice mem (4 + p.length) rest.length = rest := by
  have length : bs.length = 4 + (p.length + rest.length) := by
    rw [split, List.length_append, frame_length, Nat.add_assoc]
  rw [length, slice_add, slice_add, split, frame, List.append_assoc] at bytes
  obtain ⟨-, tail⟩ := List.append_inj bytes (by simp)
  obtain ⟨payload, rest⟩ := List.append_inj tail (by simp)
  exact ⟨payload, by simpa using rest⟩

theorem readBody_reads (r : Reader) (holds : Holds b bs) (four : 4 ≤ bs.length)
    (le : bs.length ≤ s.maxSize) (asks : AsksOk s.maxSize b.asks) (small : s.maxSize < 2 ^ 31)
    (binary : ¬ (s.isHttp = true ∧ ∃ c ∈ bs.head?, isAlpha c = true)) :
    Reads r false s bs script (readBody r s script b) := by
  have len : announced (slice b.mem 0 4) = announced bs := announced_slice four holds.bytes
  have lt := announced_lt bs
  simp only [readBody, len]
  split_ifs with bad wrap large
  · refine ⟨asks, by simp, by simp, by simp, fun ret returned => .inr ?_⟩
    obtain rfl := ReadEnd.returned.inj returned
    refine ⟨by omega, [], script, .nil, by simpa using four, ?_⟩
    rw [List.append_nil]
    by_cases high : 2 ^ 31 ≤ announced bs
    · omega
    · rw [toInt32_of_lt (by omega) (by omega)] at bad
      omega
  · refine ⟨asks, by simp, by simp, fun _ => ⟨[], script, .nil, by simpa using four, ?_⟩, by simp⟩
    rw [List.append_nil]
    omega
  · refine ⟨asks, by simp, by simp, by simp, fun ret returned => .inr ?_⟩
    obtain rfl := ReadEnd.returned.inj returned
    refine ⟨by omega, [], script, .nil, by simpa using four, ?_⟩
    rw [List.append_nil]
    omega
  · have pos : 0 < announced bs := by
      by_contra zero
      have none : announced bs = 0 := by omega
      rw [none] at bad
      exact bad (by decide)
    have meets : Meets (fill r s.maxSize (announced bs + 4) false script b) _ _ _ :=
      fill_meets holds asks (by omega) (by rw [holds.curLen]; exact le)
    cases second : fill r s.maxSize (announced bs + 4) false script b with
    | impossible => exact ⟨asks, by simp, by simp, by simp, by simp⟩
    | waits b' =>
      rw [second] at meets
      obtain ⟨got, gets, holds', less, asks'⟩ := meets
      refine ⟨asks', fun _ => ⟨rfl, got, gets, ?_⟩, by simp, by simp, by simp⟩
      rw [holds'.curLen] at less
      simp only [Unfinished, announced_append four]
      omega
    | fails ret b' script' =>
      rw [second] at meets
      obtain ⟨got, stops, -, -, -, -, asks'⟩ := meets
      refine ⟨asks', by simp, fun ret' failed => ?_, by simp, by simp⟩
      obtain rfl := ReadEnd.failed.inj failed
      exact ⟨got, stops⟩
    | full b' script' =>
      rw [second] at meets
      obtain ⟨got, gets, holds', enough, le', asks', -, -⟩ := meets
      have curLen := holds'.curLen
      rw [curLen] at enough le'
      have finished : ¬ Unfinished (bs ++ got) := by
        rw [List.length_append] at enough
        rw [Unfinished, announced_append four, List.length_append]
        omega
      obtain ⟨p, rest, split, length, -⟩ := exists_frame finished
      rw [announced_append four] at length
      obtain ⟨payload, tail⟩ := frame_here holds'.bytes split
      have total : (bs ++ got).length = 4 + p.length + rest.length := by
        rw [split, List.length_append, frame_length]
      refine ⟨asks', by simp, by simp, by simp, fun ret returned => .inl ?_⟩
      obtain rfl := ReadEnd.returned.inj returned
      refine ⟨rfl, p, got, rest, gets, split, by simp [length], payload, ?_, ?_, rfl, rfl, by omega, ?_⟩
      · simp only
        omega
      · refine ⟨?_, ?_, ?_, ?_, fun zero => ?_⟩
        · simp only
          omega
        · simp only
          omega
        · simp only
          omega
        · simp only [← length]
          rw [add_comm]
          exact tail
        · simp only at zero
          omega
      · rw [refused_append four]
        rintro ⟨-, zero | large' | http⟩
        · omega
        · omega
        · exact binary http

/-- The early `recv` is tried where the first four bytes are not there yet. -/
def Overload.early (o : Overload) (bs : List UInt8) : Bool := o.hasData && decide (bs.length < 4)

/-- What one call does, whatever the system calls come back with. -/
theorem read_reads (o : Overload) (held : Held s bs) (small : s.maxSize < 2 ^ 31)
    (big : 4 < s.maxSize) : Reads o.reader (o.early bs) s bs script (o.read s script) := by
  rw [Overload.read_eq, readPacketWith]
  obtain ⟨holds, noAsks⟩ := held.compact
  have total := held.total
  have start := held.start
  have fits := held.fits
  have curLen := holds.curLen
  have meets : Meets (fill o.reader s.maxSize 4 (o.early bs) script (compact s)) _ _ _ :=
    fill_meets holds (by simp [noAsks, AsksOk]) (by omega) (by omega)
  have tried : fill o.reader s.maxSize 4 o.hasData script (compact s) =
      fill o.reader s.maxSize 4 (o.early bs) script (compact s) := by
    by_cases less : bs.length < 4
    · rw [Overload.early, decide_eq_true less, Bool.and_true]
    · have enough : 4 ≤ (compact s).curLen := by omega
      rw [fill_enough enough, fill_enough enough]
  rw [tried]
  cases first : fill o.reader s.maxSize 4 (o.early bs) script (compact s) with
  | impossible => exact ⟨by simp [AsksOk], by simp, by simp, by simp, by simp⟩
  | waits b =>
    rw [first] at meets
    obtain ⟨got, gets, holds', less, asks⟩ := meets
    refine ⟨asks, fun _ => ⟨rfl, got, gets, ?_⟩, by simp, by simp, by simp⟩
    rw [holds'.curLen] at less
    simp only [Unfinished]
    omega
  | fails ret b script' =>
    rw [first] at meets
    obtain ⟨got, stops, -, -, -, -, asks⟩ := meets
    refine ⟨asks, by simp, fun ret' failed => ?_, by simp, by simp⟩
    obtain rfl := ReadEnd.failed.inj failed
    exact ⟨got, stops⟩
  | full b script' =>
    rw [first] at meets
    obtain ⟨got, gets, holds', enough, le, asks, -⟩ := meets
    rw [holds'.curLen] at enough le
    have four : 4 ≤ (bs ++ got).length := by omega
    have head : (bs ++ got).head? = some (b.mem 0) := by
      rw [← holds'.bytes, show (bs ++ got).length = 1 + ((bs ++ got).length - 1) by omega, slice_add]
      simp [slice]
    simp only
    split
    case isTrue http =>
      rw [Bool.and_eq_true] at http
      refine ⟨asks, by simp, by simp, by simp, fun ret returned => .inr ?_⟩
      obtain rfl := ReadEnd.returned.inj returned
      exact ⟨by omega, got, script', gets, four, .inr (.inr ⟨http.1, b.mem 0, head, http.2⟩)⟩
    case isFalse plain =>
      have binary : ¬ (s.isHttp = true ∧ ∃ c ∈ (bs ++ got).head?, isAlpha c = true) := by
        simpa [head] using plain
      refine (readBody_reads o.reader holds' four le asks small binary).after gets ?_
      rintro rfl
      rw [List.append_nil] at four
      simp [Overload.early, four]

/-- A call returns the packet `p`. -/
structure Gives (out : ReadOut) (p : List UInt8) : Prop where
  outcome : out.outcome = .returned 1
  pack : out.pack = some (4, (p.length : ℤ))
  bytes : slice out.stream.mem 4 p.length = p

/-- The packet that is returned is the first frame of the bytes held and of those to come. -/
theorem gives_iff (held : Held s bs) (big : 4 < s.maxSize) (small : s.maxSize < 2 ^ 31)
    (fine : ∀ a ∈ script, Fine a) (possible : (o.read s script).outcome ≠ .impossible)
    {p : List UInt8} : Gives (o.read s script) p ↔ Short p ∧
      (∃ rest, bs ++ bytesOf script = frame p ++ rest) ∧ ¬ Refused s (bs ++ bytesOf script) := by
  have reads : Reads o.reader (o.early bs) s bs script (o.read s script) := read_reads o held small big
  have bytes : ∀ {got script'}, Gets o.reader (o.early bs) script got script' →
      bytesOf script = got ++ bytesOf script' := fun gets =>
    (gets_brings gets fun a ha => (fine a ha).early).bytes
  have four_of : ∀ {got rest p'}, bs ++ got = frame p' ++ rest → 4 ≤ (bs ++ got).length := by
    intro got rest p' split
    rw [split, List.length_append, frame_length]
    omega
  constructor
  · rintro ⟨one, pack, payload⟩
    rcases reads.returns 1 one with ⟨-, p', got, rest, took⟩ | ⟨other, -⟩
    · have same := (Prod.mk.inj (Option.some.inj (took.pack.symm.trans pack))).2
      have length : p'.length = p.length := by omega
      obtain rfl : p' = p := by rw [← took.here, length, payload]
      have inside := took.inside
      have fits := took.held.fits
      have size := took.maxSize
      have all : bs ++ bytesOf script = bs ++ got ++ bytesOf (o.read s script).script := by
        rw [bytes took.gets, List.append_assoc]
      refine ⟨by rw [Short]; omega, ⟨rest ++ bytesOf (o.read s script).script, ?_⟩, ?_⟩
      · rw [all, took.frame, List.append_assoc]
      · rw [all, refused_append (four_of took.frame)]
        exact took.unrefused
    · exact absurd other (by decide)
  · rintro ⟨short, ⟨rest, split⟩, unrefused⟩
    have part : ∀ {got script'}, Gets o.reader (o.early bs) script got script' →
        ¬ Refused s (bs ++ got) := by
      intro got script' gets refused
      rw [bytes gets, ← List.append_assoc] at unrefused
      exact unrefused ((refused_append refused.1 _).mpr refused)
    cases outcome : (o.read s script).outcome with
    | impossible => exact absurd outcome possible
    | failed ret =>
      obtain ⟨got, stops⟩ := reads.failed ret outcome
      exact absurd stops (not_stops fine)
    | waits =>
      obtain ⟨-, got, gets, unfinished⟩ := reads.waits outcome
      have all : bytesOf script = got := by simpa [bytesOf] using bytes gets
      rw [← all, split] at unfinished
      exact absurd unfinished (not_unfinished_frame short rest)
    | undefined =>
      obtain ⟨got, script', gets, refused⟩ := reads.undefined outcome
      exact absurd refused (part gets)
    | returned ret =>
      rcases reads.returns ret outcome with ⟨rfl, p', got, rest', took⟩ | ⟨-, got, script', gets, refused⟩
      · have inside := took.inside
        have fits := took.held.fits
        have size := took.maxSize
        have short' : Short p' := by
          rw [Short]
          omega
        rw [bytes took.gets, ← List.append_assoc, took.frame, List.append_assoc] at split
        obtain ⟨rfl, -⟩ := frame_inj short' short split
        exact ⟨outcome, took.pack, took.here⟩
      · exact absurd refused (part gets)

end Read

section Next

variable {s : PacketStream} {bs p rest : List UInt8}

/-- Without a whole frame `next_packet` changes nothing. -/
theorem next_unfinished (held : Held s bs) (small : s.maxSize < 2 ^ 31) (unfinished : Unfinished bs)
    (wrap : 4 ≤ bs.length → announced bs + 4 < 2 ^ 32) (low : 4 + s.prevPos < 2 ^ 31) :
    ∃ ret, nextPacket s = some (ret, s, none) ∧ ret ≠ 0 := by
  have total := held.total
  have start := held.start
  have fits := held.fits
  rw [nextPacket, if_neg (by omega)]
  split
  case isTrue => exact ⟨-1, rfl, by decide⟩
  case isFalse enough =>
    have four : 4 ≤ bs.length := by omega
    have less : bs.length < 4 + announced bs := unfinished.resolve_left (by omega)
    have lt := wrap four
    have count : (s.totalLen - s.prevPos) % 2 ^ 32 = bs.length := by omega
    simp only [announced_slice four held.bytes, count]
    rw [if_pos (by omega)]
    exact ⟨-2, rfl, by decide⟩

theorem next_frame (held : Held s (frame p ++ rest)) (small : s.maxSize < 2 ^ 31) (short : Short p)
    (low : 4 + s.prevPos < 2 ^ 31) :
    ∃ s', nextPacket s = some (0, s', some (s.prevPos + 4, (p.length : ℤ))) ∧ Held s' rest ∧
      s'.maxSize = s.maxSize ∧ s'.isHttp = s.isHttp ∧
      slice s.mem (s.prevPos + 4) p.length = p ∧ s.prevPos + 4 + p.length ≤ s.totalLen ∧
      s'.mem = s.mem ∧ s'.totalLen = s.totalLen := by
  have total := held.total
  have start := held.start
  have fits := held.fits
  have length : (frame p ++ rest).length = 4 + p.length + rest.length := by
    rw [List.length_append, frame_length]
  have four : 4 ≤ (frame p ++ rest).length := by omega
  have count : (s.totalLen - s.prevPos) % 2 ^ 32 = (frame p ++ rest).length := by omega
  have pos : toInt32 (s.prevPos + (p.length + 4)) = s.prevPos + (p.length + 4) :=
    toInt32_of_lt (by omega) (by omega)
  have len : toInt32 p.length = p.length := toInt32_of_lt (by omega) (by omega)
  have here := held.bytes
  rw [length, Nat.add_assoc, slice_add, slice_add, frame, List.append_assoc] at here
  obtain ⟨-, tail⟩ := List.append_inj here (by simp)
  obtain ⟨payload, rest'⟩ := List.append_inj tail (by simp)
  rw [nextPacket, if_neg (by omega), if_neg (by omega)]
  simp only [announced_slice four held.bytes, announced_frame short, count, pos, len]
  rw [if_neg (by omega)]
  refine ⟨_, rfl, ⟨?_, ?_, fits, ?_, fun zero => ?_⟩, rfl, rfl, payload, by omega, rfl, rfl⟩
  · simp only
    omega
  · simp only
    omega
  · simp only
    rw [show s.prevPos + ((p.length : ℤ) + 4) = s.prevPos + (4 : ℕ) + p.length by push_cast; ring]
    exact rest'
  · simp only at zero
    omega

end Next

end Conet.Base.NetToolRead
