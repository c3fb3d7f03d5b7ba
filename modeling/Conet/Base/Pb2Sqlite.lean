/- Module: Conet/Base/Pb2Sqlite
   source: base/src/pb2sqlite.cpp, base/pb2sqlite.h
   digest: Messages as rows of a table of sqlite: the statements that select rows by a message. -/

import Conet.Base.JsonWriters

set_option autoImplicit false
set_option relaxedAutoImplicit false

namespace Conet.Base.Pb2Sqlite

open Conet.Lib.DynMessage Conet.Base.QueryString Conet.Base.String2number
open Conet.Base.HttpParser (codes)
open Conet.Base.JsonWriters (getInt getString)

abbrev Text := List UInt8

/-- A row, by the names of the columns. -/
abbrev Row (V : Type) := Text → V

/-- What sqlite does with a statement, a string of C: it fails and changes nothing, or it gives the rows
of the table afterwards and the rows of the result. -/
structure Sqlite (F V : Type) where
  exec : Text → List (Row V) → Option (List (Row V) × List (Row V))
  /-- the value of a literal -/
  constant : Text → Option V
  /-- the value of a scalar -/
  value : Scalar F → V
  /-- `=` in a condition -/
  equal : V → V → Bool
  /-- what a column holds when it is set to a value -/
  store : Text → V → V
  /-- the columns as `sqlite3_exec` gives them to its callback -/
  columns : Row V → List (Text × Option Text)

/-- What a call gives: `PLOG_FATAL` ends the process, or it returns -1, or all is well. -/
inductive Ret (A : Type)
  | abort
  | error
  | ok (a : A)
  deriving DecidableEq

variable {D F V : Type}

section Code

/-- `insert` of a `std::map`: a key that is there keeps its value. -/
def mapInsert (key val : Text) : List (Text × Text) → List (Text × Text)
  | [] => [(key, val)]
  | e :: es =>
    if key = e.1 then e :: es
    else if key < e.1 then (key, val) :: e :: es
    else e :: mapInsert key val es

/-- `sqlite3_mprintf("%Q", s.c_str())`. -/
def quote (s : Text) : Text :=
  39 :: ((s.takeWhile (· != 0)).flatMap (fun c => if c = 39 then [39, 39] else [c]) ++ [39])

/-- `number2string` of a floating point number, with `format` for `%f`. -/
def float2string (format : F → Text) (i : F) : Text :=
  let out := resize [] 40
  let (out, len) := snprintf out (format i)
  resize out len

/-- The value of a singular field that is set. -/
def getScalar : List (Node (Scalar F)) → Scalar F
  | .scalar v :: _ => v
  | _ => .num 0

variable (format : F → Text) (fl : Floats F) (sq : Sqlite F V)

/-- The text of a value in `PB2Map`; there is none for enums and messages. -/
def valueText (f : FieldDescriptor D (Scalar F)) (v : Scalar F) : Option Text :=
  match f.cppType with
  | .int32 => some (number2string .int32 (getInt v))
  | .uint32 => some (number2string .uint32 (getInt v))
  | .float =>
    match v with
    | .float x => some (float2string format x)
    | _ => some []
  | .bool => some (number2string .int32 (getInt v))
  | .int64 => some (number2string .int64 (getInt v))
  | .uint64 => some (number2string .uint64 (getInt v))
  | .double =>
    match v with
    | .float x => some (float2string format x)
    | _ => some []
  | .string => some (quote (getString v))
  | .enum => none
  | .message => none

/-- The loop of `PB2Map` over the fields. -/
def pb2MapLoop (message : Msg (Scalar F)) :
    List (FieldDescriptor D (Scalar F)) → List (Text × Text) → Ret (List (Text × Text))
  | [], out => .ok out
  | field :: fields, out =>
    if !field.isRepeated && (message field.number).isEmpty then
      if field.isRequired then .error else pb2MapLoop message fields out
    else if field.isRepeated then .error
    else
      match valueText format field (getScalar (message field.number)) with
      | none => .abort
      | some val => pb2MapLoop message fields (mapInsert field.name val out)

def pb2Map (d : Descriptor D (Scalar F)) (message : Msg (Scalar F)) (out : List (Text × Text)) :
    Ret (List (Text × Text)) :=
  pb2MapLoop format message (d.extensions ++ d.fields) out

/-- The loop of `sqlite2pb` over the columns. -/
def sqlite2pbLoop (d : Descriptor D (Scalar F)) :
    List (Text × Option Text) → Msg (Scalar F) → Ret (Msg (Scalar F))
  | [], msg => .ok msg
  | (_, none) :: columns, msg => sqlite2pbLoop d columns msg
  | (name, some text) :: columns, msg =>
    match d.fields.find? fun f => f.name == name with
    | none => sqlite2pbLoop d columns msg
    | some field =>
      if field.isRepeated then .error
      else
        match field.cppType with
        | .enum => .abort
        | .message => .abort
        | .string => sqlite2pbLoop d columns (setField d field msg (.string text))
        | .bool =>
          -- the number is read as an `int32_t`
          let val := getInt (string2number fl .int32 text)
          sqlite2pbLoop d columns (setField d field msg (.bool (val != 0)))
        | t => sqlite2pbLoop d columns (setField d field msg (string2number fl t text))

def sqlite2pb (d : Descriptor D (Scalar F)) (columns : List (Text × Option Text)) :
    Ret (Msg (Scalar F)) :=
  sqlite2pbLoop fl d columns Msg.new

/-- The calls of `sqlite2pb` for the rows of a result; where one fails, `sqlite3_exec` does. -/
def results (d : Descriptor D (Scalar F)) : List (Row V) → Ret (List (Msg (Scalar F)))
  | [] => .ok []
  | row :: rows =>
    match sqlite2pb fl d (sq.columns row) with
    | .abort => .abort
    | .error => .error
    | .ok msg =>
      match results d rows with
      | .abort => .abort
      | .error => .error
      | .ok msgs => .ok (msg :: msgs)

/-- `get_assign_expr`, from the index `i` on. -/
def getAssignExpr : ℕ → List (Text × Text) → Text
  | _, [] => []
  | i, e :: es => (if 0 < i then [44] else []) ++ (e.1 ++ 61 :: e.2) ++ getAssignExpr (i + 1) es

def cStr (s : Text) : Text := s.takeWhile (· != 0)

variable (tableName : Text)

/-- `update` of the rows that a message selects: what is returned, and the rows of the table. -/
def update (wd : Descriptor D (Scalar F)) (wheres : Msg (Scalar F)) (md : Descriptor D (Scalar F))
    (msg : Msg (Scalar F)) (rows : List (Row V)) : Ret Unit × List (Row V) :=
  match pb2Map format md msg [] with
  | .abort => (.abort, rows)
  | .error => (.error, rows)
  | .ok datas =>
    let setValues := getAssignExpr 0 datas
    let whereDatas : List (Text × Text) := []
    -- it is `datas` again that is filled
    match pb2Map format wd wheres datas with
    | .abort => (.abort, rows)
    | .error => (.error, rows)
    | .ok _ =>
      let whereValues := getAssignExpr 0 whereDatas
      let query := codes "update  " ++ tableName ++ codes " SET " ++ setValues ++ codes " WHERE " ++
        whereValues
      match sq.exec (cStr query) rows with
      | none => (.error, rows)
      | some (rows, _) => (.ok (), rows)

/-- `get` by a message: the message that is copied to the result, if there is one. -/
def get (wd : Descriptor D (Scalar F)) (wheres : Msg (Scalar F)) (rd : Descriptor D (Scalar F))
    (rows : List (Row V)) : Ret (Option (Msg (Scalar F))) :=
  match pb2Map format wd wheres [] with
  | .abort => .abort
  | .error => .error
  | .ok whereDatas =>
    let whereValues := getAssignExpr 0 whereDatas
    let query := codes "select  * from " ++ tableName ++
      if whereValues = [] then [] else codes " WHERE " ++ whereValues ++ codes " limit 1;"
    match sq.exec (cStr query) rows with
    | none => .error
    | some (_, found) =>
      match results fl sq rd found with
      | .abort => .abort
      | .error => .error
      | .ok msgs => .ok msgs.head?

/-- `get_all`: the messages that are given out, of which it returns the number. -/
def getAll (wd : Descriptor D (Scalar F)) (wheres : Msg (Scalar F)) (rows : List (Row V)) :
    Ret (List (Msg (Scalar F))) :=
  match pb2Map format wd wheres [] with
  | .abort => .abort
  | .error => .error
  | .ok whereDatas =>
    let whereValues := getAssignExpr 0 whereDatas
    let query := codes "select  * from " ++ tableName ++
      if whereValues = [] then [] else codes " WHERE " ++ whereValues
    match sq.exec (cStr query) rows with
    | none => .error
    | some (_, found) => results fl sq wd found

end Code

/-! ### What a message selects -/

section Meaning

variable (format : F → Text) (fl : Floats F) (sq : Sqlite F V) (tableName : Text)

/-- The fields of a message that are set. -/
def setFields (d : Descriptor D (Scalar F)) (m : Msg (Scalar F)) : List (FieldDescriptor D (Scalar F)) :=
  (d.extensions ++ d.fields).filter fun f => !(m f.number).isEmpty

/-- The columns of the row equal all set fields. -/
def selected (d : Descriptor D (Scalar F)) (wheres : Msg (Scalar F)) (row : Row V) : Bool :=
  (setFields d wheres).all fun f => sq.equal (row f.name) (sq.value (getScalar (wheres f.number)))

/-- The row with the fields set that are set in the message. -/
def setRow (d : Descriptor D (Scalar F)) (msg : Msg (Scalar F)) (row : Row V) : Row V := fun name =>
  match (setFields d msg).find? fun f => f.name == name with
  | none => row name
  | some f => sq.store name (sq.value (getScalar (msg f.number)))

/-- The table with the selected rows changed, and no other. -/
def updated (wd : Descriptor D (Scalar F)) (wheres : Msg (Scalar F)) (md : Descriptor D (Scalar F))
    (msg : Msg (Scalar F)) (rows : List (Row V)) : List (Row V) :=
  rows.map fun row => if selected sq wd wheres row then setRow sq md msg row else row

/-- The calls do what a message selects. -/
structure Selects (wd : Descriptor D (Scalar F)) (wheres : Msg (Scalar F))
    (md : Descriptor D (Scalar F)) (msg : Msg (Scalar F)) (rd : Descriptor D (Scalar F))
    (rows : List (Row V)) : Prop where
  update : (update format sq tableName wd wheres md msg rows).2 = updated sq wd wheres md msg rows
  get : rows.filter (selected sq wd wheres) ≠ [] →
    ∃ row ∈ rows.filter (selected sq wd wheres), ∃ m, sqlite2pb fl rd (sq.columns row) = .ok m ∧
      get format fl sq tableName wd wheres rd rows = .ok (some m)
  getAll : ∃ ms, results fl sq wd (rows.filter (selected sq wd wheres)) = .ok ms ∧
    getAll format fl sq tableName wd wheres rows = .ok ms

/-- What is known of sqlite, for a table with its columns: a condition that compares one column, a comma
behind a condition, and an `UPDATE` with nothing behind its `WHERE`. -/
structure Meaning (column : Text → Prop) : Prop where
  table : 0 ∉ tableName
  name : ∀ name, column name → 0 ∉ name
  select : ∀ name val v rows, column name → sq.constant val = some v →
    sq.exec (codes "select  * from " ++ tableName ++ (codes " WHERE " ++ (name ++ 61 :: val))) rows =
      some (rows, rows.filter fun row => sq.equal (row name) v)
  selectFirst : ∀ name val v rows, column name → sq.constant val = some v →
    sq.exec (codes "select  * from " ++ tableName ++
      (codes " WHERE " ++ (name ++ 61 :: val) ++ codes " limit 1;")) rows =
        some (rows, (rows.filter fun row => sq.equal (row name) v).take 1)
  selectComma : ∀ name val v rest rows, column name → sq.constant val = some v →
    sq.exec (codes "select  * from " ++ tableName ++
      (codes " WHERE " ++ (name ++ 61 :: val) ++ 44 :: rest)) rows = none
  updateNowhere : ∀ datas rows, (∀ e ∈ datas, column e.1 ∧ (sq.constant e.2).isSome) →
    sq.exec (codes "update  " ++ tableName ++ codes " SET " ++ getAssignExpr 0 datas ++
      codes " WHERE ") rows = none

/-- The text of a field is a literal of its value. -/
def Exact (m : Msg (Scalar F)) (f : FieldDescriptor D (Scalar F)) : Prop :=
  ∀ val, valueText format f (getScalar (m f.number)) = some val →
    0 ∉ val ∧ sq.constant val = some (sq.value (getScalar (m f.number)))

/-- `PB2Map` can write the field: it is not repeated, a required one is set, and one that is set is no
enum and no message. -/
structure Writable (m : Msg (Scalar F)) (f : FieldDescriptor D (Scalar F)) : Prop where
  singular : f.isRepeated = false
  required : f.isRequired = true → m f.number ≠ []
  scalar : m f.number ≠ [] → f.cppType ≠ .enum ∧ f.cppType ≠ .message

/-- `sqlite2pb` can read the columns: those that have a value and a field, with a scalar of it. -/
def Readable (d : Descriptor D (Scalar F)) (columns : List (Text × Option Text)) : Prop :=
  ∀ name text, (name, some text) ∈ columns → ∀ f, d.fields.find? (fun f => f.name == name) = some f →
    f.isRepeated = false ∧ f.cppType ≠ .enum ∧ f.cppType ≠ .message

end Meaning

section Map

variable {format : F → Text} {m : Msg (Scalar F)} {f : FieldDescriptor D (Scalar F)}
  {fields : List (FieldDescriptor D (Scalar F))} {key val : Text} {out datas : List (Text × Text)}

theorem valueText_isSome {v : Scalar F} :
    (valueText format f v).isSome ↔ f.cppType ≠ .enum ∧ f.cppType ≠ .message := by
  unfold valueText
  cases f.cppType <;> cases v <;> simp

theorem mapInsert_perm (fresh : key ∉ out.map Prod.fst) :
    (mapInsert key val out).Perm ((key, val) :: out) := by
  induction out with
  | nil => exact .refl _
  | cons e es ih =>
    rw [List.map_cons, List.mem_cons, not_or] at fresh
    rw [mapInsert, if_neg fresh.1]
    split_ifs
    · exact .refl _
    · exact ((ih fresh.2).cons e).trans (.swap ..)

theorem mem_mapInsert {e : Text × Text} (mem : e ∈ mapInsert key val out) : e = (key, val) ∨ e ∈ out := by
  induction out with
  | nil => exact .inl (List.mem_singleton.mp mem)
  | cons e' es ih =>
    rw [mapInsert] at mem
    split_ifs at mem
    · exact .inr mem
    · exact List.mem_cons.mp mem
    · rcases List.mem_cons.mp mem with rfl | mem
      · exact .inr List.mem_cons_self
      · exact (ih mem).imp id (List.mem_cons_of_mem e')

/-- What the loop does with a field where it succeeds. -/
theorem pb2MapLoop_cons : pb2MapLoop format m (f :: fields) out = .ok datas ↔
    f.isRepeated = false ∧
      (m f.number = [] ∧ f.isRequired = false ∧ pb2MapLoop format m fields out = .ok datas ∨
        m f.number ≠ [] ∧ ∃ val, valueText format f (getScalar (m f.number)) = some val ∧
          pb2MapLoop format m fields (mapInsert f.name val out) = .ok datas) := by
  rw [pb2MapLoop]
  cases repeated : f.isRepeated with
  | true => simp
  | false =>
    by_cases unset : m f.number = []
    · cases required : f.isRequired <;> simp [unset]
    · cases text : valueText format f (getScalar (m f.number)) <;> simp [unset]

theorem pb2MapLoop_ok : (∃ datas, pb2MapLoop format m fields out = .ok datas) ↔
    ∀ f ∈ fields, Writable m f := by
  induction fields generalizing out with
  | nil => simp [pb2MapLoop]
  | cons f fields ih =>
    have written : ∀ v : Scalar F, (∃ val, valueText format f v = some val) ↔
        f.cppType ≠ .enum ∧ f.cppType ≠ .message := fun v => by
      rw [← Option.isSome_iff_exists, valueText_isSome]
    rw [List.forall_mem_cons]
    constructor
    · rintro ⟨datas, done⟩
      obtain ⟨singular, ⟨unset, free, rest⟩ | ⟨set, val, text, rest⟩⟩ := pb2MapLoop_cons.mp done
      · refine ⟨⟨singular, fun required => ?_, fun set => absurd unset set⟩, ih.mp ⟨datas, rest⟩⟩
        rw [free] at required
        cases required
      · exact ⟨⟨singular, fun _ => set, fun _ => (written _).mp ⟨val, text⟩⟩, ih.mp ⟨datas, rest⟩⟩
    · rintro ⟨here, later⟩
      by_cases unset : m f.number = []
      · obtain ⟨datas, rest⟩ := ih.mpr later
        have free : f.isRequired = false := by
          by_contra required
          exact here.required (Bool.not_eq_false _ ▸ required) unset
        exact ⟨datas, pb2MapLoop_cons.mpr ⟨here.singular, .inl ⟨unset, free, rest⟩⟩⟩
      · obtain ⟨val, text⟩ := (written (getScalar (m f.number))).mpr (here.scalar unset)
        obtain ⟨datas, rest⟩ := ih.mpr later
        exact ⟨datas, pb2MapLoop_cons.mpr ⟨here.singular, .inr ⟨unset, val, text, rest⟩⟩⟩

/-- The entries of the map are the texts of the fields that are set. -/
theorem pb2MapLoop_entries (done : pb2MapLoop format m fields out = .ok datas) :
    ∀ e ∈ datas, e ∈ out ∨ ∃ f ∈ fields, m f.number ≠ [] ∧ e.1 = f.name ∧
      valueText format f (getScalar (m f.number)) = some e.2 := by
  induction fields generalizing out with
  | nil =>
    rw [pb2MapLoop] at done
    cases done
    exact fun e mem => .inl mem
  | cons f fields ih =>
    intro e mem
    obtain ⟨-, ⟨-, -, rest⟩ | ⟨set, val, text, rest⟩⟩ := pb2MapLoop_cons.mp done
    · exact (ih rest e mem).imp id fun ⟨g, inside, found⟩ => ⟨g, List.mem_cons_of_mem f inside, found⟩
    · rcases ih rest e mem with before | ⟨g, inside, found⟩
      · rcases mem_mapInsert before with rfl | before
        · exact .inr ⟨f, List.mem_cons_self, set, rfl, text⟩
        · exact .inl before
      · exact .inr ⟨g, List.mem_cons_of_mem f inside, found⟩

/-- Where the names differ, there is one entry for each field that is set. -/
theorem pb2MapLoop_length (done : pb2MapLoop format m fields out = .ok datas)
    (nodup : (fields.map FieldDescriptor.name ++ out.map Prod.fst).Nodup) :
    datas.length = (fields.filter fun f => !(m f.number).isEmpty).length + out.length := by
  induction fields generalizing out with
  | nil =>
    rw [pb2MapLoop] at done
    cases done
    simp
  | cons f fields ih =>
    rw [List.map_cons, List.cons_append, List.nodup_cons] at nodup
    obtain ⟨-, ⟨unset, -, rest⟩ | ⟨set, val, text, rest⟩⟩ := pb2MapLoop_cons.mp done
    · have length := ih rest nodup.2
      simpa [List.filter_cons, unset] using length
    · have fresh : f.name ∉ out.map Prod.fst := fun mem => nodup.1 (List.mem_append_right _ mem)
      have inserted : (mapInsert f.name val out).Perm ((f.name, val) :: out) := mapInsert_perm fresh
      have moved : (fields.map FieldDescriptor.name ++ (mapInsert f.name val out).map Prod.fst).Perm
          (f.name :: (fields.map FieldDescriptor.name ++ out.map Prod.fst)) :=
        ((inserted.map Prod.fst).append_left _).trans List.perm_middle
      have length := ih rest (moved.nodup_iff.mpr (List.nodup_cons.mpr nodup))
      rw [inserted.length_eq, List.length_cons] at length
      rw [length, List.filter_cons, if_pos (by simpa using set), List.length_cons]
      omega

end Map

section Rows

variable {fl : Floats F} {sq : Sqlite F V} {d : Descriptor D (Scalar F)} {msg : Msg (Scalar F)}
  {columns : List (Text × Option Text)} {rows : List (Row V)}

theorem sqlite2pbLoop_ok : (∃ m, sqlite2pbLoop fl d columns msg = .ok m) ↔ Readable d columns := by
  induction columns generalizing msg with
  | nil => simp [sqlite2pbLoop, Readable]
  | cons column columns ih =>
    obtain ⟨name, _ | text⟩ := column
    · rw [sqlite2pbLoop, ih]
      simp [Readable]
    · have split : Readable d ((name, some text) :: columns) ↔
          (∀ f, d.fields.find? (fun f => f.name == name) = some f →
            f.isRepeated = false ∧ f.cppType ≠ .enum ∧ f.cppType ≠ .message) ∧ Readable d columns := by
        constructor
        · intro readable
          exact ⟨readable name text List.mem_cons_self,
            fun n t mem => readable n t (List.mem_cons_of_mem _ mem)⟩
        · rintro ⟨here, later⟩ n t mem
          rcases List.mem_cons.mp mem with same | mem
          · obtain ⟨rfl, same⟩ := Prod.mk.inj same
            exact here
          · exact later n t mem
      rw [split, sqlite2pbLoop]
      cases found : d.fields.find? fun f => f.name == name with
      | none => simp [ih]
      | some f =>
        cases repeated : f.isRepeated with
        | true => simp [repeated]
        | false => cases type : f.cppType <;> simp [repeated, type, ih]

theorem sqlite2pb_ok (fl : Floats F) : (∃ m, sqlite2pb fl d columns = .ok m) ↔ Readable d columns := sqlite2pbLoop_ok

theorem results_ok : (∃ ms, results fl sq d rows = .ok ms) ↔
    ∀ row ∈ rows, Readable d (sq.columns row) := by
  induction rows with
  | nil => simp [results]
  | cons row rows ih =>
    rw [List.forall_mem_cons, ← sqlite2pb_ok fl, ← ih, results]
    cases sqlite2pb fl d (sq.columns row) with
    | abort => simp
    | error => simp
    | ok m => cases results fl sq d rows <;> simp

end Rows

section Statements

variable {format : F → Text} {fl : Floats F} {sq : Sqlite F V} {tableName : Text}
  {column : Text → Prop} {wd md rd : Descriptor D (Scalar F)} {wheres msg : Msg (Scalar F)}
  {rows : List (Row V)} {datas : List (Text × Text)} {s t : Text}

theorem cStr_self (zero : 0 ∉ s) : cStr s = s := by
  refine List.takeWhile_eq_self_iff.mpr fun c mem => ?_
  exact bne_iff_ne.mpr fun same => zero (same ▸ mem)

theorem zero_notMem_assign {i : ℕ} (plain : ∀ e ∈ datas, 0 ∉ e.1 ∧ 0 ∉ e.2) :
    0 ∉ getAssignExpr i datas := by
  induction datas generalizing i with
  | nil => exact List.not_mem_nil
  | cons e es ih =>
    obtain ⟨name, val⟩ := plain e List.mem_cons_self
    have rest := ih (i := i + 1) fun e' mem => plain e' (List.mem_cons_of_mem e mem)
    have comma : (0 : UInt8) ∉ if 0 < i then [44] else [] := by split_ifs <;> decide
    rw [getAssignExpr]
    simp [name, val, rest, comma]

/-- The entries that are written for fields with columns and exact values. -/
theorem entries_constant {m : Msg (Scalar F)} {d : Descriptor D (Scalar F)}
    {out : List (Text × Text)} (done : pb2Map format d m out = .ok datas)
    (columns : ∀ f ∈ setFields d m, column f.name) (literal : ∀ f ∈ setFields d m, Exact format sq m f) :
    ∀ e ∈ datas, e ∈ out ∨ ∃ f ∈ setFields d m, e.1 = f.name ∧ column e.1 ∧ 0 ∉ e.2 ∧
      sq.constant e.2 = some (sq.value (getScalar (m f.number))) := by
  intro e mem
  obtain before | ⟨f, inside, set, name, text⟩ := pb2MapLoop_entries done e mem
  · exact .inl before
  · have listed : f ∈ setFields d m := List.mem_filter.mpr ⟨inside, by simpa using set⟩
    obtain ⟨zero, constant⟩ := literal f listed e.2 text
    exact .inr ⟨f, listed, name, name ▸ columns f listed, zero, constant⟩

/-- The texts of a message whose fields have columns and exact values. -/
theorem entries_of_exact {m : Msg (Scalar F)} {d : Descriptor D (Scalar F)}
    (done : pb2Map format d m [] = .ok datas) (columns : ∀ f ∈ setFields d m, column f.name)
    (literal : ∀ f ∈ setFields d m, Exact format sq m f) :
    ∀ e ∈ datas, column e.1 ∧ 0 ∉ e.2 ∧ (sq.constant e.2).isSome := by
  intro e mem
  obtain before | ⟨f, -, -, named, zero, constant⟩ := entries_constant done columns literal e mem
  · cases before
  · exact ⟨named, zero, constant ▸ rfl⟩

theorem update_rows (meaning : Meaning sq tableName column)
    (columns : ∀ f ∈ setFields md msg, column f.name)
    (literal : ∀ f ∈ setFields md msg, Exact format sq msg f) :
    (update format sq tableName wd wheres md msg rows).2 = rows := by
  unfold update
  cases done : pb2Map format md msg [] with
  | abort => rfl
  | error => rfl
  | ok datas =>
    have entries := entries_of_exact done columns literal
    have zero : 0 ∉ codes "update  " ++ tableName ++ codes " SET " ++ getAssignExpr 0 datas ++
        codes " WHERE " := by
      have first : (0 : UInt8) ∉ codes "update  " := by decide
      have second : (0 : UInt8) ∉ codes " SET " := by decide
      have third : (0 : UInt8) ∉ codes " WHERE " := by decide
      have assign : 0 ∉ getAssignExpr 0 datas := zero_notMem_assign fun e mem =>
        ⟨meaning.name e.1 (entries e mem).1, (entries e mem).2.1⟩
      simp [first, second, third, assign, meaning.table]
    have fails := meaning.updateNowhere datas rows fun e mem => ⟨(entries e mem).1, (entries e mem).2.2⟩
    cases again : pb2Map format wd wheres datas with
    | abort => simp only [again]
    | error => simp only [again]
    | ok _ => simp only [again, getAssignExpr, List.append_nil, cStr_self zero, fails]

theorem assign_one (name val : Text) : getAssignExpr 0 [(name, val)] = name ++ 61 :: val := by
  simp [getAssignExpr]

theorem assign_more (e e' : Text × Text) (es : List (Text × Text)) :
    ∃ rest, getAssignExpr 0 (e :: e' :: es) = (e.1 ++ 61 :: e.2) ++ 44 :: rest :=
  ⟨e'.1 ++ 61 :: e'.2 ++ getAssignExpr 2 es, by simp [getAssignExpr]⟩

theorem assign_ne_nil (e : Text × Text) (es : List (Text × Text)) : getAssignExpr 0 (e :: es) ≠ [] := by
  simp [getAssignExpr]

variable {name val : Text} {v : V}

theorem zero_notMem_select (meaning : Meaning sq tableName column) (inner : 0 ∉ s) (last : 0 ∉ t) :
    0 ∉ codes "select  * from " ++ tableName ++ (codes " WHERE " ++ s ++ t) := by
  have first : (0 : UInt8) ∉ codes "select  * from " := by decide
  have second : (0 : UInt8) ∉ codes " WHERE " := by decide
  simp [first, second, meaning.table, inner, last]

/-- With one field, `get_all` gives the rows whose column equals it. -/
theorem getAll_one (meaning : Meaning sq tableName column)
    (done : pb2Map format wd wheres [] = .ok [(name, val)]) (named : column name) (zero : 0 ∉ val)
    (constant : sq.constant val = some v) :
    getAll format fl sq tableName wd wheres rows =
      results fl sq wd (rows.filter fun row => sq.equal (row name) v) := by
  have text : 0 ∉ name ++ 61 :: val := by simp [meaning.name name named, zero]
  have ne : name ++ 61 :: val ≠ [] := by simp
  have plain := zero_notMem_select meaning text (List.not_mem_nil (a := 0))
  rw [List.append_nil] at plain
  simp only [getAll, done, assign_one, ne, if_false, cStr_self plain,
    meaning.select name val v rows named constant]

theorem get_one (meaning : Meaning sq tableName column)
    (done : pb2Map format wd wheres [] = .ok [(name, val)]) (named : column name) (zero : 0 ∉ val)
    (constant : sq.constant val = some v) :
    get format fl sq tableName wd wheres rd rows =
      match results fl sq rd ((rows.filter fun row => sq.equal (row name) v).take 1) with
      | .abort => .abort
      | .error => .error
      | .ok msgs => .ok msgs.head? := by
  have text : 0 ∉ name ++ 61 :: val := by simp [meaning.name name named, zero]
  have ne : name ++ 61 :: val ≠ [] := by simp
  have limit : (0 : UInt8) ∉ codes " limit 1;" := by decide
  have plain := zero_notMem_select meaning text limit
  simp only [get, done, assign_one, ne, if_false, cStr_self plain,
    meaning.selectFirst name val v rows named constant]

theorem getAll_more (meaning : Meaning sq tableName column) {e e' : Text × Text}
    {es : List (Text × Text)} (done : pb2Map format wd wheres [] = .ok (e :: e' :: es))
    (entries : ∀ e ∈ datas, column e.1 ∧ 0 ∉ e.2 ∧ (sq.constant e.2).isSome)
    (all : datas = e :: e' :: es) : getAll format fl sq tableName wd wheres rows = .error := by
  subst all
  obtain ⟨named, -, constant⟩ := entries e List.mem_cons_self
  obtain ⟨v, constant⟩ := Option.isSome_iff_exists.mp constant
  obtain ⟨rest, text⟩ := assign_more e e' es
  have assign : 0 ∉ getAssignExpr 0 (e :: e' :: es) := zero_notMem_assign fun x mem =>
    ⟨meaning.name x.1 (entries x mem).1, (entries x mem).2.1⟩
  have plain := zero_notMem_select meaning assign (List.not_mem_nil (a := 0))
  rw [List.append_nil] at plain
  have fails := meaning.selectComma e.1 e.2 v rest rows named constant
  rw [List.append_assoc (codes " WHERE "), ← text] at fails
  simp only [getAll, done, assign_ne_nil, if_false, cStr_self plain, fails]

/-- Where the names differ, there is one entry for each field that is set. -/
theorem pb2Map_length {m : Msg (Scalar F)} {d : Descriptor D (Scalar F)}
    (done : pb2Map format d m [] = .ok datas)
    (names : ((d.extensions ++ d.fields).map FieldDescriptor.name).Nodup) :
    datas.length = (setFields d m).length := by
  have counted := pb2MapLoop_length done (by simpa using names)
  exact counted.trans (Nat.add_zero _)

/-- The entry of the only field that is set, and the rows that it selects. -/
theorem single_entry (done : pb2Map format wd wheres [] = .ok datas)
    (columns : ∀ f ∈ setFields wd wheres, column f.name)
    (names : ((wd.extensions ++ wd.fields).map FieldDescriptor.name).Nodup)
    (literal : ∀ f ∈ setFields wd wheres, Exact format sq wheres f)
    (single : (setFields wd wheres).length = 1) :
    ∃ name val v, datas = [(name, val)] ∧ column name ∧ 0 ∉ val ∧ sq.constant val = some v ∧
      selected sq wd wheres = fun row => sq.equal (row name) v := by
  obtain ⟨f, only⟩ := List.length_eq_one_iff.mp single
  obtain ⟨⟨name, val⟩, rfl⟩ := List.length_eq_one_iff.mp ((pb2Map_length done names).trans single)
  obtain before | ⟨g, listed, rfl, named, zero, constant⟩ :=
    entries_constant done columns literal _ List.mem_cons_self
  · cases before
  · obtain rfl : g = f := List.mem_singleton.mp (only ▸ listed)
    refine ⟨g.name, val, _, rfl, named, zero, constant, ?_⟩
    ext row
    simp [selected, only]

/-- `get_all` gives messages out only where one field is set. -/
theorem single_of_getAll (meaning : Meaning sq tableName column)
    (columns : ∀ f ∈ setFields wd wheres, column f.name)
    (names : ((wd.extensions ++ wd.fields).map FieldDescriptor.name).Nodup)
    (literal : ∀ f ∈ setFields wd wheres, Exact format sq wheres f)
    (given : setFields wd wheres ≠ []) {ms : List (Msg (Scalar F))}
    (found : getAll format fl sq tableName wd wheres rows = .ok ms) :
    (∃ datas, pb2Map format wd wheres [] = .ok datas) ∧ (setFields wd wheres).length = 1 := by
  cases done : pb2Map format wd wheres [] with
  | abort =>
    rw [getAll, done] at found
    cases found
  | error =>
    rw [getAll, done] at found
    cases found
  | ok datas =>
    refine ⟨⟨datas, rfl⟩, ?_⟩
    have counted := pb2Map_length done names
    match datas, done, counted with
    | [], _, counted => exact absurd (List.length_eq_zero_iff.mp counted.symm) given
    | [_], _, counted => exact counted.symm
    | e :: e' :: es, done, _ =>
      rw [getAll_more meaning done (entries_of_exact done columns literal) rfl] at found
      cases found

/-- The selection by a message does what it should exactly where one field is set, the update would
change nothing, and the messages can hold the fields and the columns. -/
theorem selects_iff (meaning : Meaning sq tableName column)
    (wcolumns : ∀ f ∈ setFields wd wheres, column f.name)
    (mcolumns : ∀ f ∈ setFields md msg, column f.name)
    (names : ((wd.extensions ++ wd.fields).map FieldDescriptor.name).Nodup)
    (wexact : ∀ f ∈ setFields wd wheres, Exact format sq wheres f)
    (mexact : ∀ f ∈ setFields md msg, Exact format sq msg f)
    (given : setFields wd wheres ≠ []) :
    Selects format fl sq tableName wd wheres md msg rd rows ↔
      (setFields wd wheres).length = 1 ∧ (∀ f ∈ wd.extensions ++ wd.fields, Writable wheres f) ∧
        updated sq wd wheres md msg rows = rows ∧
        (∀ row ∈ rows.filter (selected sq wd wheres), Readable wd (sq.columns row)) ∧
        ∀ row ∈ (rows.filter (selected sq wd wheres)).head?, Readable rd (sq.columns row) := by
  have unchanged : (update format sq tableName wd wheres md msg rows).2 = rows :=
    update_rows meaning mcolumns mexact
  constructor
  · intro selects
    obtain ⟨ms, converted, found⟩ := selects.getAll
    obtain ⟨⟨datas, done⟩, single⟩ := single_of_getAll meaning wcolumns names wexact given found
    refine ⟨single, pb2MapLoop_ok.mp ⟨datas, done⟩, selects.update.symm.trans unchanged,
      results_ok.mp ⟨ms, converted⟩, fun row first => ?_⟩
    obtain ⟨name, val, v, rfl, named, zero, constant, same⟩ :=
      single_entry done wcolumns names wexact single
    have nonempty : rows.filter (selected sq wd wheres) ≠ [] := fun empty => by
      rw [empty] at first
      cases first
    obtain ⟨-, -, m, -, got⟩ := selects.get nonempty
    obtain ⟨rest, eq⟩ := List.head?_eq_some_iff.mp first
    rw [get_one meaning done named zero constant, ← same, eq, List.take_succ_cons, List.take_zero,
      results] at got
    refine (sqlite2pb_ok fl).mp ?_
    cases read : sqlite2pb fl rd (sq.columns row) with
    | abort =>
      rw [read] at got
      cases got
    | error =>
      rw [read] at got
      cases got
    | ok m => exact ⟨m, rfl⟩
  · rintro ⟨single, writable, same, readable, first⟩
    obtain ⟨datas, done⟩ : ∃ datas, pb2Map format wd wheres [] = .ok datas := pb2MapLoop_ok.mpr writable
    obtain ⟨name, val, v, rfl, named, zero, constant, eq⟩ :=
      single_entry done wcolumns names wexact single
    refine ⟨unchanged.trans same.symm, fun nonempty => ?_, ?_⟩
    · obtain ⟨row, rest, found⟩ := List.exists_cons_of_ne_nil nonempty
      rw [found] at first
      obtain ⟨m, read⟩ := (sqlite2pb_ok fl).mpr (first row rfl)
      refine ⟨row, found ▸ List.mem_cons_self, m, read, ?_⟩
      rw [get_one meaning done named zero constant, ← eq, found, List.take_succ_cons, List.take_zero,
        results, read]
      rfl
    · obtain ⟨ms, converted⟩ := results_ok.mpr readable
      refine ⟨ms, converted, ?_⟩
      rw [getAll_one meaning done named zero constant, ← eq]
      exact converted

end Statements

/-! ### Literals -/

section Literals

variable {format : F → Text} {sq : Sqlite F V} {m : Msg (Scalar F)} {f : FieldDescriptor D (Scalar F)}
  {n : ℤ} {s : Text}

/-- Integers are exact where they need at most 19 characters and are of 64 bits with sign. -/
theorem exact_int (fl : Floats F) (t : IntType) (type : f.cppType = t.cppType) (holds : t.Holds n)
    (ge : -10 ^ 18 < n) (lt : n < 2 ^ 63) (value : getScalar (m f.number) = .num n)
    (literal : ∀ n : ℤ, -2 ^ 63 ≤ n → n < 2 ^ 63 →
      sq.constant (numberText n) = some (sq.value (.num n))) : Exact format sq m f := by
  have text : number2string t n = numberText n :=
    ((number_text_iff fl t n holds).mpr ⟨ge, by omega⟩).1
  have written : valueText format f (.num n) = some (number2string t n) := by
    unfold valueText
    rw [type]
    cases t <;> rfl
  intro val found
  rw [value, written, text] at found
  obtain rfl := Option.some.inj found
  rw [value]
  exact ⟨zero_notMem_numberText n, literal n (by omega) lt⟩

theorem zero_notMem_quote (s : Text) : 0 ∉ quote s := by
  have inside : ∀ c ∈ s.takeWhile (· != 0), c ≠ 0 := fun c mem => by
    have kept := List.mem_takeWhile_imp mem
    exact bne_iff_ne.mp kept
  have parts : (0 : UInt8) ∉ (s.takeWhile (· != 0)).flatMap fun c => if c = 39 then [39, 39] else [c] := by
    intro mem
    obtain ⟨c, listed, mem⟩ := List.mem_flatMap.mp mem
    have ne := inside c listed
    split_ifs at mem
    · simp at mem
    · exact ne (List.mem_singleton.mp mem).symm
  simp [quote, parts]

/-- Strings are exact where sqlite reads them from their quotes. -/
theorem exact_string (type : f.cppType = .string) (value : getScalar (m f.number) = .string s)
    (literal : sq.constant (quote s) = some (sq.value (.string s))) : Exact format sq m f := by
  have written : valueText format f (.string s) = some (quote s) := by simp only [valueText, type]; rfl
  intro val found
  rw [value, written] at found
  obtain rfl := Option.some.inj found
  rw [value]
  exact ⟨zero_notMem_quote s, literal⟩

end Literals

/-! ### A table with one column -/

section Single

/-- A message type with the field `id`. -/
def idType : Descriptor Unit (Scalar Unit) where
  extensions := []
  fields := [⟨1, codes "id", .int32, false, false, false, none, fun _ => false, fun _ => false, ()⟩]
  nodup := by decide

def idMessage (n : ℤ) : Msg (Scalar Unit) := fun k => if k = 1 then [.scalar (.num n)] else []

def idSelect : Text := codes "select  * from test WHERE id="

/-- What sqlite does with the statements that compare `id` with 1 or 2. -/
def idSqlite : Sqlite Unit ℤ where
  exec query rows :=
    if query = idSelect ++ codes "1" then some (rows, rows.filter fun row => row (codes "id") == 1)
    else if query = idSelect ++ codes "2" then
      some (rows, rows.filter fun row => row (codes "id") == 2)
    else if query = idSelect ++ codes "1 limit 1;" then
      some (rows, (rows.filter fun row => row (codes "id") == 1).take 1)
    else if query = idSelect ++ codes "2 limit 1;" then
      some (rows, (rows.filter fun row => row (codes "id") == 2).take 1)
    else none
  constant val := if val = codes "1" then some 1 else if val = codes "2" then some 2 else none
  value
    | .num n => n
    | _ => 0
  equal v v' := v == v'
  store _ v := v
  columns row := [(codes "id", some (numberText (row (codes "id"))))]

theorem idSqlite_constant {val : Text} {v : ℤ} (constant : idSqlite.constant val = some v) :
    val = codes "1" ∧ v = 1 ∨ val = codes "2" ∧ v = 2 := by
  simp only [idSqlite] at constant
  split_ifs at constant with one two
  · exact .inl ⟨one, (Option.some.inj constant).symm⟩
  · exact .inr ⟨two, (Option.some.inj constant).symm⟩

theorem idSqlite_meaning : Meaning idSqlite (codes "test") fun name => name = codes "id" where
  table := by decide
  name := by
    rintro name rfl
    decide
  select := by
    rintro name val v rows rfl constant
    obtain ⟨rfl, rfl⟩ | ⟨rfl, rfl⟩ := idSqlite_constant constant
    · rfl
    · rfl
  selectFirst := by
    rintro name val v rows rfl constant
    obtain ⟨rfl, rfl⟩ | ⟨rfl, rfl⟩ := idSqlite_constant constant
    · rfl
    · rfl
  selectComma := by
    rintro name val v rest rows rfl constant
    have whole : codes "select  * from " ++ codes "test" ++
        (codes " WHERE " ++ (codes "id" ++ 61 :: val) ++ 44 :: rest) = idSelect ++ (val ++ 44 :: rest) := by
      simp [idSelect, codes]
    rw [whole]
    obtain ⟨rfl, -⟩ | ⟨rfl, -⟩ := idSqlite_constant constant <;>
      simp [idSqlite, codes]
  updateNowhere := by
    rintro datas rows -
    simp [idSqlite, idSelect, codes]

theorem idMessage_exact {n : ℤ} (small : n = 1 ∨ n = 2) :
    ∀ f ∈ setFields idType (idMessage n), Exact (fun _ => []) idSqlite (idMessage n) f := by
  intro f mem
  obtain rfl := List.mem_singleton.mp (List.mem_of_mem_filter mem)
  intro val found
  obtain rfl | rfl := small
  · obtain rfl := Option.some.inj found
    decide
  · obtain rfl := Option.some.inj found
    decide

theorem idMessage_columns (n : ℤ) : ∀ f ∈ setFields idType (idMessage n), f.name = codes "id" := by
  intro f mem
  obtain rfl := List.mem_singleton.mp (List.mem_of_mem_filter mem)
  rfl

/-- Two rows, with the same value to be set. -/
theorem selects_id :
    Selects (fun _ => []) ⟨fun _ => (), fun _ => (), fun _ => ()⟩ idSqlite (codes "test") idType
        (idMessage 1) idType (idMessage 1) idType [fun _ => 1, fun _ => 2] ↔
      (setFields idType (idMessage 1)).length = 1 ∧
        (∀ f ∈ idType.extensions ++ idType.fields, Writable (idMessage 1) f) ∧
        updated idSqlite idType (idMessage 1) idType (idMessage 1) [fun _ => 1, fun _ => 2] =
          [fun _ => 1, fun _ => 2] ∧
        (∀ row ∈ [fun _ => 1, fun _ => 2].filter (selected idSqlite idType (idMessage 1)),
          Readable idType (idSqlite.columns row)) ∧
        ∀ row ∈ ([fun _ => 1, fun _ => 2].filter (selected idSqlite idType (idMessage 1))).head?,
          Readable idType (idSqlite.columns row) :=
  selects_iff idSqlite_meaning (idMessage_columns 1) (idMessage_columns 1) (List.nodup_singleton _)
    (idMessage_exact (.inl rfl)) (idMessage_exact (.inl rfl)) (List.cons_ne_nil _ _)

/-- `update` of the rows with `id` 1 to `id` 2 leaves them as they are. -/
theorem update_id_fails : ¬ ∀ (wheres msg : Msg (Scalar Unit)) (rows : List (Row ℤ)),
    setFields idType wheres ≠ [] →
      Selects (fun _ => []) ⟨fun _ => (), fun _ => (), fun _ => ()⟩ idSqlite (codes "test") idType
        wheres idType msg idType rows := by
  intro always
  have selects := always (idMessage 1) (idMessage 2) [fun _ => 1] (List.cons_ne_nil _ _)
  have unchanged : (update (fun _ => []) idSqlite (codes "test") idType (idMessage 1) idType
      (idMessage 2) [fun _ => 1]).2 = [fun _ => 1] :=
    update_rows idSqlite_meaning (idMessage_columns 2) (idMessage_exact (.inr rfl))
  have same := selects.update.symm.trans unchanged
  have value := congrArg (fun rows : List (Row ℤ) => rows.map fun row => row (codes "id")) same
  revert value
  decide

end Single

end Conet.Base.Pb2Sqlite
