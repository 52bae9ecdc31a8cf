import MonsterMQ.AuthAcl
import MonsterMQ.SqlLiterals

/-!
# Aggregated history

The SQL texts of `GetAggregatedHistory`. Topics and times are parameters; the names of the fields are
written into the text, which is the intended statement while they stay inside their string literals.
-/

namespace MonsterMQ.Archive

open LittleEndian Auth SqlLiterals List

def decimal (n : ℕ) : Bytes := (Nat.toDigits 10 n).map fun c => c.toNat.toUInt8

def joinPieces {α : Type} (sep : List α) : List (List α) → List α
  | [] => []
  | [c] => c
  | c :: d :: cs => c ++ sep ++ joinPieces sep (d :: cs)

/-- `strings.ToUpper`, as far as its result can be one of the function names: the dotless i and
the long s become letters of ASCII. -/
def toUpper : Bytes → Bytes
  | [] => []
  | [c] => [if 0x61 ≤ c ∧ c ≤ 0x7A then c - 0x20 else c]
  | c :: d :: s =>
    if c = 0xC4 ∧ d = 0xB1 then 0x49 :: toUpper s
    else if c = 0xC5 ∧ d = 0xBF then 0x53 :: toUpper s
    else (if 0x61 ≤ c ∧ c ≤ 0x7A then c - 0x20 else c) :: toUpper (d :: s)

def sqlFunc (fn : Bytes) : Bytes :=
  if toUpper fn ∈ [ascii "AVG", ascii "MIN", ascii "MAX", ascii "COUNT", ascii "SUM"] then toUpper fn
  else ascii "AVG"

/-- Where the two archives differ: the expression of the time bucket, the placeholders of the
parameters, and the expression of a field's value. -/
structure Dialect where
  bucketExpr : ℕ → Bytes
  placeholder : ℕ → Bytes
  valExpr : Bytes → List Piece

def jsonNumberExpr (text : Bytes) : Bytes :=
  ascii "CASE WHEN json_valid(" ++ text ++ ascii ") THEN CASE WHEN json_type(" ++ text ++
    ascii ") IN ('integer', 'real') THEN CAST(" ++ text ++ ascii " AS REAL) END END"

/-- The text for 5 and for 15 minutes is that of the last case. -/
def sqliteBucketExpr (interval : ℕ) : Bytes :=
  if interval = 1 then ascii "strftime('%Y-%m-%dT%H:%M:00Z', time)"
  else if interval = 60 then ascii "strftime('%Y-%m-%dT%H:00:00Z', time)"
  else if interval = 1440 then ascii "strftime('%Y-%m-%dT00:00:00Z', time)"
  else ascii "strftime('%Y-%m-%dT%H:', time) || printf('%02d', (CAST(strftime('%M', time) AS INTEGER) / " ++
    decimal interval ++ ascii ") * " ++ decimal interval ++ ascii ") || ':00Z'"

@[grind =] def sqliteValExpr (field : Bytes) : List Piece :=
  if field = [] then
    [.fixed (ascii "COALESCE(" ++ jsonNumberExpr (ascii "payload_json") ++ ascii ", " ++
      jsonNumberExpr (ascii "CAST(payload_blob AS TEXT)") ++ ascii ")")]
  else
    [.fixed (ascii "COALESCE(CAST(json_extract(payload_json, '$."), .input field,
      .fixed (ascii "') AS REAL), CAST(json_extract(CAST(payload_blob AS TEXT), '$."), .input field,
      .fixed (ascii "') AS REAL))")]

def sqlite : Dialect where
  bucketExpr := sqliteBucketExpr
  placeholder := fun _ => ascii "?"
  valExpr := sqliteValExpr

def postgresBucketExpr (interval : ℕ) : Bytes :=
  if interval = 1 then
    ascii "to_char(date_trunc('minute', time), 'YYYY-MM-DD\"T\"HH24:MI:00\"Z\"')"
  else if interval = 60 then
    ascii "to_char(date_trunc('hour', time), 'YYYY-MM-DD\"T\"HH24:00:00\"Z\"')"
  else if interval = 1440 then
    ascii "to_char(date_trunc('day', time), 'YYYY-MM-DD\"T\"00:00:00\"Z\"')"
  else
    ascii "to_char(date_trunc('hour', time) + (EXTRACT(minute FROM time)::int / " ++
      decimal interval ++ ascii " * " ++ decimal interval ++
      ascii ") * interval '1 minute', 'YYYY-MM-DD\"T\"HH24:MI:00\"Z\"')"

def rawNumberExpr : Bytes :=
  ascii "COALESCE(" ++
  ascii "CASE WHEN jsonb_typeof(payload_json) = 'number' THEN (payload_json)::NUMERIC END, " ++
  ascii "CASE WHEN encode(payload_blob, 'escape') ~ " ++
  ascii "'^[ \\t\\n\\r]*-?(0|[1-9][0-9]*)(\\.[0-9]+)?([eE][+-]?[0-9]+)?[ \\t\\n\\r]*$' " ++
  ascii "THEN (encode(payload_blob, 'escape'))::NUMERIC END)"

@[grind =]
def jsonDocExpr : Bytes := ascii "COALESCE(payload_json, (convert_from(payload_blob, 'UTF8'))::jsonb)"

def dotByte : UInt8 := 0x2E

def splitDots : Bytes → List Bytes
  | [] => [[]]
  | c :: s =>
    if c = dotByte then [] :: splitDots s
    else match splitDots s with
      | [] => [[c]]
      | p :: ps => (c :: p) :: ps

@[grind =] def postgresValExpr (field : Bytes) : List Piece :=
  if field = [] then [.fixed rawNumberExpr]
  else
    let pathParts := splitDots field
    if pathParts.length = 1 then
      [.fixed (ascii "(" ++ jsonDocExpr ++ ascii "->>'"), .input field, .fixed (ascii "')::NUMERIC")]
    else
      [.fixed (ascii "(" ++ jsonDocExpr ++ ascii "->")] ++
        joinPieces [.fixed (ascii "->")] (pathParts.dropLast.map fun p => [.input p]) ++
        [.fixed (ascii "->>'"), .input (pathParts.getLastD []), .fixed (ascii "')::NUMERIC")]

def postgres : Dialect where
  bucketExpr := postgresBucketExpr
  placeholder := fun n => ascii "$" ++ decimal n
  valExpr := postgresValExpr

inductive Param where
  | topic (topic : Bytes)
  | time (t : ℤ)
  deriving DecidableEq, Repr

structure Request where
  topics : List Bytes
  startTime : ℤ
  endTime : ℤ
  intervalMinutes : ℤ
  functions : List Bytes
  fields : List Bytes
  deriving DecidableEq, Repr

def Request.interval (q : Request) : ℕ := if q.intervalMinutes ≤ 0 then 5 else q.intervalMinutes.toNat

def Request.effectiveFunctions (q : Request) : List Bytes :=
  if q.functions.isEmpty then [ascii "AVG"] else q.functions

def Request.effectiveFields (q : Request) : List Bytes :=
  if q.fields.isEmpty then [[]] else q.fields

/-- The columns of the answer in the order of the three loops. -/
def Request.cells (q : Request) : List (Bytes × Bytes × Bytes) :=
  q.topics.flatMap fun topic => q.effectiveFields.flatMap fun field =>
    q.effectiveFunctions.map fun fn => (topic, field, fn)

@[grind =] def Dialect.clause (d : Dialect) (paramIndex : ℕ) (field fn : Bytes) : List Piece :=
  [.fixed (sqlFunc fn ++ ascii "(CASE WHEN topic = " ++ d.placeholder paramIndex ++ ascii " THEN ")] ++
    d.valExpr field ++ [.fixed (ascii " END)")]

/-- `selectClauses`, the first of them with this parameter. -/
@[grind =] def Dialect.clauses (d : Dialect) : ℕ → List (Bytes × Bytes × Bytes) → List (List Piece)
  | _, [] => []
  | n, (_, field, fn) :: cells => d.clause n field fn :: d.clauses (n + 1) cells

def Dialect.placeholders (d : Dialect) (first count : ℕ) : Bytes :=
  joinPieces (ascii ", ") ((List.range count).map fun i => d.placeholder (first + i))

def Dialect.statement (d : Dialect) (table : Bytes) (q : Request) : List Piece :=
  let last := q.cells.length + q.topics.length
  [.fixed (ascii "SELECT\n\t\t" ++ d.bucketExpr q.interval ++ ascii " AS bucket,\n\t\t")] ++
    joinPieces [.fixed (ascii ",\n")] (d.clauses 1 q.cells) ++
    [.fixed (ascii "\n\tFROM " ++ table ++ ascii "\n\tWHERE topic IN (" ++
      d.placeholders (q.cells.length + 1) q.topics.length ++ ascii ") AND time >= " ++
      d.placeholder (last + 1) ++ ascii " AND time <= " ++ d.placeholder (last + 2) ++
      ascii "\n\tGROUP BY bucket\n\tORDER BY bucket ASC")]

def Request.params (q : Request) : List Param :=
  q.cells.map (fun cell => .topic cell.1) ++ q.topics.map .topic ++ [.time q.startTime, .time q.endTime]

def Dialect.getAggregatedHistory (d : Dialect) (table : Bytes) (q : Request) :
    Option (List Piece × List Param) :=
  if q.topics.isEmpty then none else some (d.statement table q, q.params)

theorem quote_not_mem_decimal (n : ℕ) : quote ∉ decimal n := by
  intro h
  obtain ⟨c, hc, heq⟩ := mem_map.mp h
  have hdigit := Nat.isDigit_of_mem_toDigits (by decide) (by decide) hc
  simp only [Char.isDigit, Bool.and_eq_true, decide_eq_true_eq] at hdigit
  have hlow : 48 ≤ c.toNat := hdigit.1
  have hhigh : c.toNat ≤ 57 := hdigit.2
  have hval := congrArg UInt8.toNat heq
  rw [Nat.toUInt8, UInt8.toNat_ofNat'] at hval
  have hquote : quote.toNat = 39 := rfl
  omega

private theorem quote_not_mem_sqlFunc (fn : Bytes) : quote ∉ sqlFunc fn := by
  rw [sqlFunc]
  split
  · rename_i h
    have hall : ∀ name ∈ [ascii "AVG", ascii "MIN", ascii "MAX", ascii "COUNT", ascii "SUM"],
        quote ∉ name := by
      simp only [forall_mem_cons, not_mem_nil, false_imp_iff, implies_true, and_true]
      exact ⟨not_mem_ascii rfl rfl, not_mem_ascii rfl rfl, not_mem_ascii rfl rfl,
        not_mem_ascii rfl rfl, not_mem_ascii rfl rfl⟩
    exact hall _ h
  · exact not_mem_ascii rfl rfl

/-- What the argument needs of a dialect: the fixed parts close their literals, and a field's
expression is confined exactly for the fields that `ok` holds of. -/
structure Dialect.Lawful (d : Dialect) (ok : Bytes → Prop) : Prop where
  bucket : ∀ n, (scan .outside (d.bucketExpr n ++ ascii " AS bucket,\n\t\t")).1 = .outside
  placeholder : ∀ n, quote ∉ d.placeholder n
  value : ∀ field, Confined .outside (d.valExpr field) ↔ ok field
  close : ∀ field, ok field → (scan .outside (render (d.valExpr field) ++ ascii " END)")).1 = .outside
  whole : ok []

theorem confined_joinPieces {sep : Text} (hsep : quote ∉ sep) {cs : List (List Piece)}
    (h : ∀ c ∈ cs, Confined .outside c → (scan .outside (render c)).1 = .outside) :
    Confined .outside (joinPieces [.fixed sep] cs) ↔ ∀ c ∈ cs, Confined .outside c := by
  induction cs with
  | nil => exact iff_of_true trivial fun c hc => absurd hc not_mem_nil
  | cons c cs ih =>
    have ih := ih fun c' hc' => h c' (mem_cons_of_mem _ hc')
    cases cs with
    | nil => simp [joinPieces]
    | cons c' cs =>
      rw [joinPieces, append_assoc, confined_append, forall_mem_cons]
      apply and_congr_right
      intro hc
      rw [h c mem_cons_self hc, singleton_append, Confined, scan_plain hsep]
      exact ih

section Lawful

variable {d : Dialect} {ok : Bytes → Prop}

section

variable (h : d.Lawful ok)
include h

theorem Dialect.Lawful.quote_not_mem_start (n : ℕ) (fn : Bytes) :
    quote ∉ sqlFunc fn ++ ascii "(CASE WHEN topic = " ++ d.placeholder n ++ ascii " THEN " := by
  simp only [mem_append, not_or]
  exact ⟨⟨⟨quote_not_mem_sqlFunc fn, not_mem_ascii rfl rfl⟩, h.placeholder n⟩, not_mem_ascii rfl rfl⟩

theorem Dialect.Lawful.confined_clause_iff (n : ℕ) (field fn : Bytes) :
    Confined .outside (d.clause n field fn) ↔ ok field := by
  rw [Dialect.clause, append_assoc, singleton_append, Confined,
    scan_plain (h.quote_not_mem_start n fn), confined_append, h.value]
  exact and_iff_left trivial

theorem Dialect.Lawful.scan_clause (n : ℕ) {field : Bytes} (fn : Bytes)
    (hok : ok field) : (scan .outside (render (d.clause n field fn))).1 = .outside := by
  have hrender : render (d.clause n field fn) = (sqlFunc fn ++ ascii "(CASE WHEN topic = " ++
      d.placeholder n ++ ascii " THEN ") ++ (render (d.valExpr field) ++ ascii " END)") := by
    rw [Dialect.clause, append_assoc, render_append, render_append]
    simp [render, Piece.text]
  rw [hrender, scan_append, scan_plain (h.quote_not_mem_start n fn)]
  exact h.close field hok

theorem Dialect.Lawful.confined_clauses_iff {cells : List (Bytes × Bytes × Bytes)} :
    ∀ {n : ℕ}, (∀ c ∈ d.clauses n cells, Confined .outside c) ↔ ∀ cell ∈ cells, ok cell.2.1 := by
  induction cells with
  | nil => simp [Dialect.clauses]
  | cons cell cells ih =>
    intro n
    obtain ⟨topic, field, fn⟩ := cell
    rw [Dialect.clauses, forall_mem_cons, forall_mem_cons, h.confined_clause_iff, ih]

theorem Dialect.Lawful.scan_clauses {cells : List (Bytes × Bytes × Bytes)} :
    ∀ {n : ℕ}, ∀ c ∈ d.clauses n cells, Confined .outside c →
      (scan .outside (render c)).1 = .outside := by
  induction cells with
  | nil => exact fun c hc => absurd hc not_mem_nil
  | cons cell cells ih =>
    intro n c hc hconf
    obtain ⟨topic, field, fn⟩ := cell
    rw [Dialect.clauses, mem_cons] at hc
    rcases hc with rfl | hc
    · exact h.scan_clause n fn ((h.confined_clause_iff n field fn).mp hconf)
    · exact ih c hc hconf

end

theorem forall_cells_iff {q : Request} (ht : q.topics ≠ []) {P : Bytes → Prop} (h0 : P []) :
    (∀ cell ∈ q.cells, P cell.2.1) ↔ ∀ field ∈ q.fields, P field := by
  have hfn : q.effectiveFunctions ≠ [] := by
    rw [Request.effectiveFunctions]
    split
    · simp
    · rename_i hne
      exact fun h => hne (isEmpty_iff.mpr h)
  obtain ⟨topic, ht⟩ := exists_mem_of_ne_nil _ ht
  obtain ⟨fn, hfn⟩ := exists_mem_of_ne_nil _ hfn
  constructor
  · intro h field hf
    have hne : ¬ q.fields.isEmpty = true := by
      intro hempty
      rw [isEmpty_iff.mp hempty] at hf
      exact not_mem_nil hf
    have heff : field ∈ q.effectiveFields := by
      rw [Request.effectiveFields, if_neg hne]
      exact hf
    exact h (topic, field, fn) (mem_flatMap.mpr ⟨topic, ht, mem_flatMap.mpr
      ⟨field, heff, mem_map.mpr ⟨fn, hfn, rfl⟩⟩⟩)
  · intro h cell hcell
    obtain ⟨_, -, hcell⟩ := mem_flatMap.mp hcell
    obtain ⟨field, hfield, hcell⟩ := mem_flatMap.mp hcell
    obtain ⟨_, -, rfl⟩ := mem_map.mp hcell
    rw [Request.effectiveFields] at hfield
    split at hfield
    · rw [mem_singleton.mp hfield]
      exact h0
    · exact h field hfield

theorem Dialect.Lawful.confined_iff (h : d.Lawful ok) (table : Bytes) {q : Request} (ht : q.topics ≠ []) :
    Confined .outside (d.statement table q) ↔ ∀ field ∈ q.fields, ok field := by
  have hhead : (scan .outside (ascii "SELECT\n\t\t" ++ d.bucketExpr q.interval ++
      ascii " AS bucket,\n\t\t")).1 = .outside := by
    rw [append_assoc, scan_append]
    exact h.bucket q.interval
  rw [Dialect.statement, append_assoc, singleton_append, Confined, hhead, confined_append,
    confined_joinPieces (by decide) h.scan_clauses, h.confined_clauses_iff, forall_cells_iff ht h.whole]
  exact and_iff_left trivial

end Lawful

set_option maxRecDepth 4000 in
private theorem sqlite_bucket (n : ℕ) :
    (scan .outside (sqliteBucketExpr n ++ ascii " AS bucket,\n\t\t")).1 = .outside := by
  rw [sqliteBucketExpr]
  split
  · repeat rw [ascii_eq rfl]
    rfl
  split
  · repeat rw [ascii_eq rfl]
    rfl
  split
  · repeat rw [ascii_eq rfl]
    rfl
  · have hdec := scan_plain (quote_not_mem_decimal n)
    simp only [append_assoc]
    repeat rw [ascii_eq rfl]
    rw [scan_append_outside rfl, scan_append_outside hdec, scan_append_outside rfl,
      scan_append_outside hdec]
    rfl

set_option maxRecDepth 4000 in
private theorem postgres_bucket (n : ℕ) :
    (scan .outside (postgresBucketExpr n ++ ascii " AS bucket,\n\t\t")).1 = .outside := by
  rw [postgresBucketExpr]
  split
  · repeat rw [ascii_eq rfl]
    rfl
  split
  · repeat rw [ascii_eq rfl]
    rfl
  split
  · repeat rw [ascii_eq rfl]
    rfl
  · have hdec := scan_plain (quote_not_mem_decimal n)
    simp only [append_assoc]
    repeat rw [ascii_eq rfl]
    rw [scan_append_outside rfl, scan_append_outside hdec, scan_append_outside rfl,
      scan_append_outside hdec]
    rfl

theorem scan_jsonNumberExpr {text : Bytes} (h : quote ∉ text) (rest : Text) :
    (scan .outside (jsonNumberExpr text ++ rest)).1 = (scan .outside rest).1 := by
  have htypes : (scan .outside (ascii ") IN ('integer', 'real') THEN CAST(")).1 = .outside := by
    rw [ascii_eq rfl]
    rfl
  have hplain : ∀ {s : String} {cs : List Char}, s = String.ofList cs →
      (cs.all fun c => c.toNat.toUInt8 != quote) = true → (scan .outside (ascii s)).1 = .outside :=
    fun hs hcs => scan_plain (not_mem_ascii hs hcs)
  simp only [jsonNumberExpr, append_assoc]
  rw [scan_append_outside (hplain rfl rfl), scan_append_outside (scan_plain h),
    scan_append_outside (hplain rfl rfl), scan_append_outside (scan_plain h),
    scan_append_outside htypes, scan_append_outside (scan_plain h), scan_append_outside (hplain rfl rfl)]

theorem sqlite_start : (scan .outside (ascii "COALESCE(CAST(json_extract(payload_json, '$.")).1 =
    .inside (ascii "$.") := by
  repeat rw [ascii_eq rfl]
  rfl

theorem sqlite_next :
    (scan .outside (ascii " AS REAL), CAST(json_extract(CAST(payload_blob AS TEXT), '$.")).1 =
      .inside (ascii "$.") := by
  repeat rw [ascii_eq rfl]
  rfl

theorem sqlite_middle : ascii "') AS REAL), CAST(json_extract(CAST(payload_blob AS TEXT), '$." =
    quote :: 0x29 :: ascii " AS REAL), CAST(json_extract(CAST(payload_blob AS TEXT), '$." := by
  repeat rw [ascii_eq rfl]
  rfl

private theorem sqlite_confined_iff (field : Bytes) :
    Confined .outside (sqliteValExpr field) ↔ quotesPaired field = true := by
  rw [sqliteValExpr]
  split
  · rename_i hempty
    exact iff_of_true trivial (by rw [hempty]; rfl)
  · rw [Confined, sqlite_start, confined_input_iff, Confined, sqlite_middle, scan_close (by decide),
      sqlite_next, confined_input_iff]
    constructor
    · exact fun h => h.1
    · exact fun h => ⟨h, h, trivial⟩

set_option maxRecDepth 4000 in
theorem sqlite_close {field : Bytes} (h : quotesPaired field = true) :
    (scan .outside (render (sqliteValExpr field) ++ ascii " END)")).1 = .outside := by
  rw [sqliteValExpr]
  split
  · rw [render, flatMap_singleton, Piece.text]
    simp only [append_assoc]
    rw [scan_append_outside (scan_plain (not_mem_ascii rfl rfl)),
      scan_jsonNumberExpr (not_mem_ascii rfl rfl),
      scan_append_outside (scan_plain (not_mem_ascii rfl rfl)),
      scan_jsonNumberExpr (not_mem_ascii rfl rfl),
      scan_append_outside (scan_plain (not_mem_ascii rfl rfl))]
    exact scan_plain (not_mem_ascii rfl rfl)
  · have hend : ascii "') AS REAL))" ++ ascii " END)" = quote :: 0x29 :: ascii " AS REAL)) END)" := by
      repeat rw [ascii_eq rfl]
      rfl
    simp only [render, flatMap_cons, flatMap_nil, Piece.text, append_assoc,
      nil_append]
    rw [scan_append, sqlite_start, scan_append, scan_paired h, sqlite_middle, cons_append,
      cons_append]
    dsimp only
    rw [scan_close (by decide), scan_append, sqlite_next, scan_append, scan_paired h, hend]
    dsimp only
    rw [scan_close (by decide)]
    repeat rw [ascii_eq rfl]
    rfl

theorem sqlite_lawful : sqlite.Lawful fun field => quotesPaired field = true where
  bucket := sqlite_bucket
  placeholder := fun _ => by
    show quote ∉ ascii "?"
    exact not_mem_ascii rfl rfl
  value := sqlite_confined_iff
  close := fun _ h => sqlite_close h
  whole := rfl

theorem length_splitDots (s : Bytes) : (splitDots s).length = s.count dotByte + 1 := by
  induction s with
  | nil => rfl
  | cons c s ih =>
    rw [splitDots]
    split
    · rename_i hc
      rw [length_cons, ih, hc, count_cons_self]
    · rename_i hc
      rw [count_cons_of_ne hc]
      split
      · rename_i hnil
        rw [hnil] at ih
        cases ih
      · rename_i p ps hsplit
        rw [hsplit] at ih
        exact ih

theorem splitDots_one_iff {s : Bytes} : (splitDots s).length = 1 ↔ dotByte ∉ s := by
  rw [length_splitDots, Nat.succ_inj, count_eq_zero]

private theorem not_confined_path {ps : List Bytes} (h : 1 < ps.length) (rest : List Piece) :
    ¬ Confined .outside (joinPieces [.fixed (ascii "->")] (ps.dropLast.map fun p => [.input p]) ++
      rest) := by
  match ps with
  | [] => cases h
  | [p] => exact absurd h (Nat.lt_irrefl 1)
  | [p, r] => exact not_confined_outside
  | p :: r :: t :: ps => exact not_confined_outside

set_option maxRecDepth 4000 in
theorem postgres_start : (scan .outside (ascii "(" ++ jsonDocExpr ++ ascii "->>'")).1 = .inside [] := by
  rw [jsonDocExpr]
  repeat rw [ascii_eq rfl]
  rfl

set_option maxRecDepth 4000 in
theorem postgres_confined_iff (field : Bytes) : Confined .outside (postgresValExpr field) ↔
    dotByte ∉ field ∧ quotesPaired field = true := by
  rw [postgresValExpr]
  split
  · rename_i hempty
    refine iff_of_true trivial ?_
    rw [hempty]
    exact ⟨not_mem_nil, rfl⟩
  · dsimp only
    split
    · rename_i hone
      rw [Confined, postgres_start, confined_input_iff, and_iff_right ((splitDots_one_iff).mp hone)]
      exact and_iff_left trivial
    · rename_i hmany
      have hpos := length_splitDots field
      have hstart : (scan .outside (ascii "(" ++ jsonDocExpr ++ ascii "->")).1 = .outside := by
        rw [jsonDocExpr]
        repeat rw [ascii_eq rfl]
        rfl
      rw [append_assoc, singleton_append, Confined, hstart]
      refine iff_of_false (not_confined_path (by omega) _) ?_
      exact fun h => hmany ((splitDots_one_iff).mpr h.1)

set_option maxRecDepth 4000 in
theorem postgres_close {field : Bytes} (hdot : dotByte ∉ field) (h : quotesPaired field = true) :
    (scan .outside (render (postgresValExpr field) ++ ascii " END)")).1 = .outside := by
  rw [postgresValExpr]
  split
  · rw [render, flatMap_singleton, Piece.text, rawNumberExpr]
    simp only [append_assoc]
    repeat rw [ascii_eq rfl]
    rw [scan_append_outside rfl, scan_append_outside rfl, scan_append_outside rfl,
      scan_append_outside rfl]
    rfl
  · dsimp only
    rw [if_pos ((splitDots_one_iff).mpr hdot)]
    have hend : ascii "')::NUMERIC" ++ ascii " END)" = quote :: 0x29 :: ascii "::NUMERIC END)" := by
      repeat rw [ascii_eq rfl]
      rfl
    simp only [render, flatMap_cons, flatMap_nil, Piece.text, append_nil]
    rw [append_assoc, scan_append, postgres_start, append_assoc, scan_append, scan_paired h,
      hend]
    dsimp only
    rw [scan_close (by decide)]
    repeat rw [ascii_eq rfl]
    rfl

theorem postgres_lawful : postgres.Lawful fun field => dotByte ∉ field ∧ quotesPaired field = true where
  bucket := postgres_bucket
  placeholder := by
    intro n
    show quote ∉ ascii "$" ++ decimal n
    rw [mem_append, not_or]
    exact ⟨not_mem_ascii rfl rfl, quote_not_mem_decimal n⟩
  value := postgres_confined_iff
  close := fun _ h => postgres_close h.1 h.2
  whole := ⟨not_mem_nil, rfl⟩

structure Engine (Row DB Answer : Type) where
  topic : Row → Bytes
  rows : DB → Bytes → List Row
  run : Text → List Param → DB → Answer × DB

section Engine

variable {Row DB Answer : Type}

def Engine.rowsOf (e : Engine Row DB Answer) (table : Bytes) (topics : List Bytes) (db : DB) : List Row :=
  (e.rows db table).filter fun row => e.topic row ∈ topics

/-- The request with its fields as keys, written as the contents of literals. -/
def Request.escaped (q : Request) : Request := { q with fields := q.fields.map escape }

/-- The database runs the statement for keys that are escaped in their literals as a SELECT on the
rows that its WHERE clause lets through, which changes nothing. -/
def Engine.RunsSelects (e : Engine Row DB Answer) (d : Dialect) (table : Bytes) (key : Bytes → Prop) : Prop :=
  ∃ answer : Request → List Row → Answer, ∀ q : Request, q.topics ≠ [] → (∀ k ∈ q.fields, key k) →
    ∀ db, e.run (render (d.statement table q.escaped)) q.escaped.params db =
      (answer q (e.rowsOf table q.topics db), db)

/-- The fields are confined to literals, the answer depends on the rows of the requested topics
alone, and the database stays as it is. -/
def Unsteered (e : Engine Row DB Answer) (d : Dialect) (table : Bytes) (q : Request) : Prop :=
  ∀ pieces params, d.getAggregatedHistory table q = some (pieces, params) →
    Confined .outside pieces ∧
    ∀ db db', e.rowsOf table q.topics db = e.rowsOf table q.topics db' →
      (e.run (render pieces) params db).1 = (e.run (render pieces) params db').1 ∧
      (e.run (render pieces) params db).2 = db ∧ (e.run (render pieces) params db').2 = db'

private theorem unescape_subset {s : Text} : ∀ c ∈ unescape s, c ∈ s := by
  fun_induction unescape s with
  | case1 => exact fun c hc => hc
  | case2 c => exact fun c hc => hc
  | case3 d s ih =>
    intro c hc
    rcases mem_cons.mp hc with rfl | hc
    · exact mem_cons_self
    · exact mem_cons_of_mem _ (mem_cons_of_mem _ (ih c hc))
  | case4 a d s _ ih =>
    intro c hc
    rcases mem_cons.mp hc with rfl | hc
    · exact mem_cons_self
    · exact mem_cons_of_mem _ (ih c hc)

private theorem escaped_unescaped {q : Request} (h : ∀ field ∈ q.fields, quotesPaired field = true) :
    Request.escaped { q with fields := q.fields.map unescape } = q := by
  have hfields : (q.fields.map unescape).map escape = q.fields := by
    rw [map_map]
    refine (map_congr_left ?_).trans (map_id _)
    intro field hf
    exact escape_unescape (h field hf)
  rw [Request.escaped]
  dsimp only
  rw [hfields]

theorem Dialect.Lawful.unsteered_iff {d : Dialect} {key : Bytes → Prop}
    (h : d.Lawful fun field => key field ∧ quotesPaired field = true)
    (hkey : ∀ field, key field → key (unescape field)) {e : Engine Row DB Answer} {table : Bytes}
    (he : e.RunsSelects d table key) (q : Request) : Unsteered e d table q ↔
      q.topics = [] ∨ ∀ field ∈ q.fields, key field ∧ quotesPaired field = true := by
  rw [Unsteered, Dialect.getAggregatedHistory]
  by_cases ht : q.topics = []
  · rw [if_pos (isEmpty_iff.mpr ht)]
    exact iff_of_true (fun _ _ h => by cases h) (.inl ht)
  · rw [if_neg (fun hempty => ht (isEmpty_iff.mp hempty)), or_iff_right ht]
    constructor
    · intro hall
      exact (h.confined_iff table ht).mp (hall _ _ rfl).1
    · intro hfields pieces params heq
      obtain ⟨rfl, rfl⟩ := Prod.mk.inj (Option.some.inj heq)
      refine ⟨(h.confined_iff table ht).mpr hfields, ?_⟩
      obtain ⟨answer, hrun⟩ := he
      have hkeys : ∀ k ∈ q.fields.map unescape, key k := by
        intro k hk
        obtain ⟨field, hf, rfl⟩ := mem_map.mp hk
        exact hkey field (hfields field hf).1
      have hruns := hrun { q with fields := q.fields.map unescape } ht hkeys
      rw [escaped_unescaped fun field hf => (hfields field hf).2] at hruns
      intro db db' hsame
      rw [hruns db, hruns db']
      dsimp only
      rw [hsame]
      exact ⟨rfl, rfl, rfl⟩

/-- Aggregated history queries are not steered by field names exactly when the quotes of the fields
come in pairs and, for PostgreSQL, no field is a path with several parts. -/
theorem aggregatedHistory_unsteered_iff {e e' : Engine Row DB Answer} {table table' : Bytes}
    (he : e.RunsSelects sqlite table fun _ => True)
    (he' : e'.RunsSelects postgres table' fun key => dotByte ∉ key) (q : Request) :
    (Unsteered e sqlite table q ↔
      q.topics = [] ∨ ∀ field ∈ q.fields, quotesPaired field = true) ∧
    (Unsteered e' postgres table' q ↔
      q.topics = [] ∨ ∀ field ∈ q.fields, dotByte ∉ field ∧ quotesPaired field = true) := by
  constructor
  · have hlawful : sqlite.Lawful fun field => True ∧ quotesPaired field = true := by
      simpa only [true_and] using sqlite_lawful
    simpa only [true_and] using hlawful.unsteered_iff (fun _ _ => trivial) he q
  · apply postgres_lawful.unsteered_iff _ he' q
    intro field hdot hm
    exact hdot (unescape_subset _ hm)

end Engine

structure Reading where
  topic : Bytes
  time : ℤ
  value : ℤ
  deriving DecidableEq, Repr

def Param.time? : Param → Option ℤ
  | .topic _ => none
  | .time t => some t

/-- Whether a reading lies between the times among the parameters. -/
def Reading.between (r : Reading) (params : List Param) : Bool :=
  match params.filterMap Param.time? with
  | [startTime, endTime] => startTime ≤ r.time && r.time ≤ endTime
  | _ => false

/-- What a text and the readings give: the tokens of the text and the readings, unless the text ends inside
a literal. -/
def lexed (text : Text) (readings : List Reading) : Option (List Token × List Reading) :=
  match scan .outside text with
  | (.outside, tokens) => some (tokens, readings)
  | _ => none

/-- A database of one table, which reads the statement and lets through the readings of the topics and
between the times among its parameters. -/
def lexingEngine : Engine Reading (List Reading) (Option (List Token × List Reading)) where
  topic := Reading.topic
  rows := fun db _ => db
  run := fun text params db => (lexed text (db.filter fun r => .topic r.topic ∈ params && r.between params), db)

theorem lexingEngine_runs (d : Dialect) (table : Bytes) (key : Bytes → Prop) :
    lexingEngine.RunsSelects d table key := by
  refine ⟨fun q rows => lexed (render (d.statement table q.escaped))
    (rows.filter fun r => r.between q.escaped.params), ?_⟩
  intro q _ _ db
  have hmem : ∀ topic, Param.topic topic ∈ q.escaped.params ↔ topic ∈ q.topics := by
    intro topic
    simp only [Request.params, mem_append, mem_map, mem_cons, not_mem_nil,
      reduceCtorEq, or_false, Param.topic.injEq, exists_eq_right]
    constructor
    · rintro (⟨cell, hcell, rfl⟩ | hm)
      · obtain ⟨topic, ht, hcell⟩ := mem_flatMap.mp hcell
        obtain ⟨field, -, hcell⟩ := mem_flatMap.mp hcell
        obtain ⟨fn, -, rfl⟩ := mem_map.mp hcell
        exact ht
      · exact hm
    · exact .inr
  have hrows : db.filter (fun r => .topic r.topic ∈ q.escaped.params && r.between q.escaped.params) =
      (lexingEngine.rowsOf table q.topics db).filter fun r => r.between q.escaped.params := by
    rw [Engine.rowsOf, filter_filter]
    exact filter_congr fun r _ => by rw [Bool.and_comm, decide_eq_decide.mpr (hmem r.topic)]; rfl
  exact Prod.ext (congrArg (lexed _) hrows) rfl

def fieldRequest (field : Bytes) : Request := ⟨[ascii "plant/a"], 0, 1, 5, [ascii "AVG"], [field]⟩

theorem plain_unsteered : (Unsteered lexingEngine sqlite (ascii "history") (fieldRequest (ascii "temp")) ↔
      (fieldRequest (ascii "temp")).topics = [] ∨
        ∀ field ∈ (fieldRequest (ascii "temp")).fields, quotesPaired field = true) ∧
    (Unsteered lexingEngine postgres (ascii "history") (fieldRequest (ascii "temp")) ↔
      (fieldRequest (ascii "temp")).topics = [] ∨
        ∀ field ∈ (fieldRequest (ascii "temp")).fields,
          dotByte ∉ field ∧ quotesPaired field = true) :=
  aggregatedHistory_unsteered_iff (lexingEngine_runs _ _ _) (lexingEngine_runs _ _ _) _

/-- A field that closes its literal and goes on with a subquery, and a path with two parts. -/
theorem injected_steered : ¬ Unsteered lexingEngine sqlite (ascii "history")
      (fieldRequest (ascii "x') AS REAL), (SELECT password_hash FROM users LIMIT 1)) END) --")) ∧
    ¬ Unsteered lexingEngine postgres (ascii "history") (fieldRequest (ascii "temp.value")) := by
  constructor
  · intro h
    have hconf := (h _ _ rfl).1
    rw [sqlite_lawful.confined_iff _ (by decide)] at hconf
    exact absurd (hconf _ mem_cons_self) (by decide)
  · intro h
    have hconf := (h _ _ rfl).1
    rw [postgres_lawful.confined_iff _ (by decide)] at hconf
    exact absurd (hconf _ mem_cons_self).1 (by decide)

end MonsterMQ.Archive
