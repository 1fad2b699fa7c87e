import Nipoto.General.Dict
import Nipoto.General.Firsts
import Nipoto.General.Json
import Nipoto.Text.Str

/-! # The check of a provider

scripts/check_provider.py. The provider is a parameter: what it streams in each run
and what it answers. Times are left out. A run that fails ends the runs of its
model, and the report keeps what the run before it has found.
-/

namespace Nipoto.CheckProvider

open Text

abbrev Environ := List (String × String)

/-- Where `str.splitlines` ends a line; the text is read with universal newlines. -/
def isLineEnd (c : Char) : Bool :=
  c ∈ ['\n', '\x0b', '\x0c', '\x1c', '\x1d', '\x1e', Char.ofNat 0x85, Char.ofNat 0x2028, Char.ofNat 0x2029]

def splitlines (text : Str) : List Str :=
  match (text.splitOnP isLineEnd).reverse with
  | [] :: rest => rest.reverse
  | _ => text.splitOnP isLineEnd

/-- A line without its comment, cut at its first equals sign. -/
def assignment (line : Str) : Option (String × String) :=
  let line := strip (line.takeWhile (· != '#'))
  match line.dropWhile (· != '=') with
  | _ :: value => some (.ofList (strip (line.takeWhile (· != '='))), .ofList (strip value))
  | [] => none

def assignments (text : Str) : List (String × String) := (splitlines text).filterMap assignment

/-- What the operating system takes for a variable. -/
def Settable (e : String × String) : Prop := e.1 ≠ "" ∧ '\x00' ∉ e.1.toList ∧ '\x00' ∉ e.2.toList

instance (e : String × String) : Decidable (Settable e) := inferInstanceAs (Decidable (_ ∧ _ ∧ _))

/-- `os.environ.setdefault`, `none` if it raises. -/
def setDefault (env : Environ) (e : String × String) : Option Environ :=
  if (env.lookup e.1).isSome ∨ Settable e then some (Dict.setDefault e.1 e.2 env) else none

/-- There may be no file. -/
def assigned (file : Option Str) : List (String × String) := (file.map assignments).getD []

def loadDotenv (file : Option Str) (env : Environ) : Option Environ := (assigned file).foldlM setDefault env

structure Usage where
  promptTokens : Int
  completionTokens : Int

structure Chunk where
  usage : Option Usage
  /-- The text of the first choice, if there is one. -/
  content : Option String

/-- An exception by its class and text. -/
structure Exc where
  name : String
  text : String

/-- The chunks of a stream, and what it raised after them. -/
structure Stream where
  chunks : List Chunk
  failure : Option Exc

inductive Completion where
  | content (text : Option String)
  /-- `BadRequestError`. -/
  | rejected (message : String)
  | failed (exc : Exc)

structure Provider where
  /-- By model and run. -/
  stream : String → Nat → Stream
  /-- With `response_format`. -/
  json : String → Completion
  plain : String → Completion

inductive JsonMode where
  | untested
  | native
  | fallback
  | failed
  deriving DecidableEq

structure Report where
  model : String
  streamOk : Bool := false
  usageInStream : Bool := false
  jsonMode : JsonMode := .untested
  promptTokens : Option Int := none
  completionTokens : Option Int := none
  sample : String := ""
  errors : List String := []

/-- `report.errors.append(line)`. -/
def Report.note (report : Report) (line : String) : Report := { report with errors := report.errors ++ [line] }

/-- One pass of the loop over the chunks, for the report. -/
def seen (report : Report) (chunk : Chunk) : Report :=
  match chunk.usage with
  | some usage =>
      { report with
        usageInStream := true, promptTokens := some usage.promptTokens, completionTokens := some usage.completionTokens }
  | none => report

/-- `"".join(parts).strip()`. -/
def Stream.text (stream : Stream) : String :=
  .ofList (strip ((stream.chunks.flatMap fun chunk => (chunk.content.getD "").toList)))

/-- `check_stream`, with the exception that it raises. -/
def checkStream (stream : Stream) (report : Report) : Report × Option Exc :=
  let report := stream.chunks.foldl seen report
  match stream.failure with
  | some exc => (report, some exc)
  | none => ({ report with sample := stream.text, streamOk := stream.text ≠ "" }, none)

/-- The runs that are left, from the run `i` on. -/
def checkStreams (streams : Nat → Stream) : Nat → Nat → Report → Report
  | 0, _, report => report
  | left + 1, i, report =>
      match checkStream (streams i) report with
      | (report, none) => checkStreams streams left (i + 1) report
      | (report, some exc) => report.note ("stream: " ++ exc.name ++ ": " ++ exc.text)

/-- `text.find(c)` and `text.rfind(c)`. -/
def find (c : Char) (text : Str) : Int :=
  match text.findIdx? (· == c) with
  | some i => i
  | none => -1

def rfind (c : Char) (text : Str) : Int :=
  match text.reverse.findIdx? (· == c) with
  | some i => (text.length : Int) - 1 - i
  | none => -1

/-- An index from the end, and one past the end. -/
def bound (length : Nat) (i : Int) : Nat := if i < 0 then (i + length).toNat else min i.toNat length

/-- `text[start:stop]`. -/
def slice (text : Str) (start stop : Int) : Str :=
  (text.take (bound text.length stop)).drop (bound text.length start)

/-- From the first brace to the last. -/
def braced (text : Str) : Str := slice text (find '\x7b' text) (rfind '\x7d' text + 1)

/-- What `json.loads` does with a text. -/
inductive Loaded where
  | value (value : Json)
  /-- `ValueError`: the text is no JSON. -/
  | notJson
  /-- Anything else, as the `RecursionError` of a text that is nested too deeply. -/
  | raised (exc : Exc)

/-- `json.loads` and `repr`. -/
structure Language where
  loads : Str → Loaded
  repr : Str → String

variable (lang : Language)

/-- `type(value).__name__`. -/
def typeName : Json → String
  | .null => "NoneType"
  | .bool _ => "bool"
  | .int _ => "int"
  | .float _ => "float"
  | .str _ => "str"
  | .arr _ => "list"
  | .obj _ => "dict"

/-- What `check_json` makes of the text of an answer, by what it is read as. -/
def judgeRead (mode : JsonMode) (text : Str) (report : Report) : Loaded → Report × Option Exc
  | .value (.obj fields) =>
      ({ report with jsonMode := if ((fields.lookup "intent").getD .null).truthy then mode else .failed }, none)
  | .value value =>
      (report, some { name := "AttributeError", text := "'" ++ typeName value ++ "' object has no attribute 'get'" })
  | .raised exc => (report, some exc)
  | .notJson =>
      ({ report.note ("unparseable JSON: " ++ lang.repr (text.take 120)) with jsonMode := .failed }, none)

/-- `(content or "").strip()`. -/
def answerText (text : Option String) : Str := strip (text.getD "").toList

def judge (mode : JsonMode) (text : Option String) (report : Report) : Report × Option Exc :=
  judgeRead lang mode (answerText text) report (lang.loads (braced (answerText text)))

def checkJson (json plain : Completion) (report : Report) : Report × Option Exc :=
  match json with
  | .content text => judge lang .native text report
  | .failed exc => (report, some exc)
  | .rejected message =>
      let report := report.note ("json_object rejected: " ++ message)
      match plain with
      | .content text => judge lang .fallback text report
      | .failed exc => (report, some exc)
      | .rejected message => (report, some { name := "BadRequestError", text := message })

variable (provider : Provider)

/-- One pass of `run`. -/
def checkModel (runs : Int) (model : String) : Report :=
  let report := checkStreams (provider.stream model) runs.toNat 0 { model }
  match checkJson lang (provider.json model) (provider.plain model) report with
  | (report, none) => report
  | (report, some exc) => report.note ("json: " ++ exc.name ++ ": " ++ exc.text)

def run (models : List String) (runs : Int) : List Report := models.map (checkModel lang provider runs)

def Report.ok (report : Report) : Bool := report.streamOk && decide (report.jsonMode ∈ [.native, .fallback])

structure Args where
  /-- `-m`, as often as it was given. -/
  models : List String
  runs : Int

/-- `os.environ.get(name)`, if it is not empty. -/
def given (env : Environ) (name : String) : Option String := (env.lookup name).filter (· ≠ "")

def missing (env : Environ) : List String := ["LLM_BASE_URL", "LLM_API_KEY"].filter fun name => (given env name).isNone

def chosen (args : Args) (env : Environ) : List String :=
  if args.models ≠ [] then args.models else [given env "CHAT_MODEL", given env "SMALL_MODEL"].filterMap id

/-- `main` after the environment file, with the reports that it prints. -/
def exitWith (args : Args) (env : Environ) : Nat × List Report :=
  if missing env ≠ [] then (2, [])
  else if chosen args env = [] then (2, [])
  else
    let reports := run lang provider (Firsts.firsts id (chosen args env)) args.runs
    (if reports.all Report.ok then 0 else 1, reports)

def main (args : Args) (file : Option Str) (env : Environ) : Option (Nat × List Report) :=
  (loadDotenv file env).map (exitWith lang provider args)

theorem setDefault_lookup {env after : Environ} {e : String × String} (set : setDefault env e = some after)
    (name : String) : after.lookup name = (env.lookup name).or (if name = e.1 then some e.2 else none) := by
  unfold setDefault at set
  split at set
  · obtain rfl := Option.some.inj set
    exact Dict.lookup_setDefault name
  · cases set

theorem setDefaults_lookup {set : List (String × String)} {env after : Environ}
    (all : set.foldlM setDefault env = some after) (name : String) :
    after.lookup name = (env.lookup name).or (set.lookup name) := by
  induction set generalizing env with
  | nil =>
      obtain rfl := Option.some.inj all
      simp
  | cons e rest ih =>
      obtain ⟨next, first, later⟩ := Option.bind_eq_some_iff.mp all
      rw [ih later, setDefault_lookup first, Option.or_assoc, List.lookup_cons]
      by_cases same : name = e.1
      · simp [same]
      · simp [same, beq_false_of_ne same]

/-- The run `j` came to its end and no later one did, of the runs from `i` on. -/
structure Last (streams : Nat → Stream) (i left j : Nat) : Prop where
  inRuns : i ≤ j ∧ j < i + left
  ended : ∀ k, i ≤ k → k ≤ j → (streams k).failure = none
  stopped : j + 1 < i + left → (streams (j + 1)).failure ≠ none

variable {streams : Nat → Stream} {i left : Nat} {report : Report}

theorem last_succ (ended : (streams i).failure = none) (j : Nat) : Last streams i (left + 1) j ↔
    Last streams (i + 1) left j ∨ j = i ∧ (left = 0 ∨ (streams (i + 1)).failure ≠ none) := by
  constructor
  · rintro ⟨inRuns, each, stopped⟩
    by_cases here : j = i
    · subst here
      refine .inr ⟨rfl, ?_⟩
      by_cases more : left = 0
      · exact .inl more
      · exact .inr (stopped (by omega))
    · exact .inl ⟨by omega, fun k low high => each k (by omega) high, fun more => stopped (by omega)⟩
  · rintro (⟨inRuns, each, stopped⟩ | ⟨rfl, stopped⟩)
    · refine ⟨by omega, fun k low high => ?_, fun more => stopped (by omega)⟩
      by_cases first : k = i
      · exact first ▸ ended
      · exact each k (by omega) high
    · refine ⟨by omega, fun k low high => ?_, fun more => ?_⟩
      · obtain rfl : k = j := by omega
        exact ended
      · exact stopped.resolve_left (by omega)

theorem seen_streamOk (chunks : List Chunk) (report : Report) :
    (chunks.foldl seen report).streamOk = report.streamOk ∧ (chunks.foldl seen report).jsonMode = report.jsonMode := by
  induction chunks generalizing report with
  | nil => exact ⟨rfl, rfl⟩
  | cons chunk rest ih =>
      rw [List.foldl_cons]
      have one : (seen report chunk).streamOk = report.streamOk ∧ (seen report chunk).jsonMode = report.jsonMode := by
        unfold seen
        split <;> exact ⟨rfl, rfl⟩
      exact ⟨(ih _).1.trans one.1, (ih _).2.trans one.2⟩

theorem checkStreams_jsonMode : (checkStreams streams left i report).jsonMode = report.jsonMode := by
  induction left generalizing i report with
  | zero => rfl
  | succ left ih =>
      have chunks := (seen_streamOk (streams i).chunks report).2
      unfold checkStreams checkStream
      cases (streams i).failure with
      | some exc => exact chunks
      | none => exact ih.trans chunks

/-- The runs leave what the last one that came to its end has found. -/
theorem checkStreams_ok : (checkStreams streams left i report).streamOk = true ↔
    (∃ j, Last streams i left j ∧ (streams j).text ≠ "") ∨
      (left = 0 ∨ (streams i).failure ≠ none) ∧ report.streamOk = true := by
  induction left generalizing i report with
  | zero =>
      have never : ¬ ∃ j, Last streams i 0 j ∧ (streams j).text ≠ "" := by
        rintro ⟨j, last, -⟩
        have := last.inRuns
        omega
      simp [checkStreams, never]
  | succ left ih =>
      have chunks := (seen_streamOk (streams i).chunks report).1
      unfold checkStreams checkStream
      cases failure : (streams i).failure with
      | some exc =>
          have never : ¬ ∃ j, Last streams i (left + 1) j ∧ (streams j).text ≠ "" := by
            rintro ⟨j, last, -⟩
            rw [last.ended i le_rfl last.inRuns.1] at failure
            cases failure
          simp [never, chunks, Report.note]
      | none =>
          simp only [ih, last_succ failure, or_and_right, exists_or, and_assoc, exists_eq_left, decide_eq_true_eq]
          simp

/-- The answer that is judged, in the mode of its call. -/
inductive Answers (json plain : Completion) : JsonMode → Option String → Prop
  | native {text} (first : json = .content text) : Answers json plain .native text
  | fallback {message text} (first : json = .rejected message) (second : plain = .content text) :
      Answers json plain .fallback text

/-- From its first brace to its last the answer is an object with an intent. -/
def HasIntent (text : Option String) : Prop :=
  ∃ fields, lang.loads (braced (answerText text)) = .value (.obj fields) ∧
    ((fields.lookup "intent").getD .null).truthy = true

/-- Reading the answer raises nothing else than that it is no JSON. -/
def Legible (text : Option String) : Prop := ∀ exc, lang.loads (braced (answerText text)) ≠ .raised exc

structure Passes (runs : Int) (model : String) : Prop where
  stream : ∃ j, Last (provider.stream model) 0 runs.toNat j ∧ (provider.stream model j).text ≠ ""
  json : ∃ mode text, Answers (provider.json model) (provider.plain model) mode text ∧ HasIntent lang text

variable {lang provider}

theorem judge_streamOk (mode : JsonMode) (text : Option String) (report : Report) :
    (judge lang mode text report).1.streamOk = report.streamOk := by
  unfold judge judgeRead
  split <;> rfl

theorem judge_jsonMode {mode : JsonMode} (known : mode ∈ [.native, .fallback]) {text : Option String}
    (untested : report.jsonMode = .untested) :
    (judge lang mode text report).1.jsonMode ∈ [.native, .fallback] ↔ HasIntent lang text := by
  unfold judge HasIntent
  cases lang.loads (braced (answerText text)) with
  | notJson => simp [judgeRead]
  | raised exc => simp [judgeRead, untested]
  | value value =>
      cases value with
      | obj fields =>
          cases intent : ((fields.lookup "intent").getD .null).truthy with
          | true => simpa [judgeRead, intent] using known
          | false => simp [judgeRead, intent]
      | _ => simp [judgeRead, untested]

theorem checkJson_streamOk (json plain : Completion) (report : Report) :
    (checkJson lang json plain report).1.streamOk = report.streamOk := by
  unfold checkJson
  cases json with
  | content text => exact judge_streamOk _ _ _
  | failed exc => rfl
  | rejected message =>
      cases plain with
      | content text => exact judge_streamOk _ _ _
      | failed exc => rfl
      | rejected message => rfl

theorem answers_native {text : Option String} {plain : Completion} {P : Option String → Prop} :
    (∃ mode other, Answers (.content text) plain mode other ∧ P other) ↔ P text := by
  constructor
  · rintro ⟨mode, other, answers, holds⟩
    cases answers with
    | native first => exact Completion.content.inj first ▸ holds
    | fallback first => cases first
  · exact fun holds => ⟨_, text, .native rfl, holds⟩

theorem answers_fallback {message : String} {text : Option String} {P : Option String → Prop} :
    (∃ mode other, Answers (.rejected message) (.content text) mode other ∧ P other) ↔ P text := by
  constructor
  · rintro ⟨mode, other, answers, holds⟩
    cases answers with
    | native first => cases first
    | fallback first second => exact Completion.content.inj second ▸ holds
  · exact fun holds => ⟨_, text, .fallback rfl rfl, holds⟩

theorem not_answers {json plain : Completion} (first : ∀ text, json ≠ .content text)
    (second : ∀ text, plain = .content text → ∀ message, json ≠ .rejected message) {P : Option String → Prop} :
    ¬ ∃ mode text, Answers json plain mode text ∧ P text := by
  rintro ⟨mode, text, answers, -⟩
  cases answers with
  | native same => exact first text same
  | fallback rejected same => exact second text same _ rejected

theorem checkJson_jsonMode {json plain : Completion} (untested : report.jsonMode = .untested) :
    (checkJson lang json plain report).1.jsonMode ∈ [.native, .fallback] ↔
      ∃ mode text, Answers json plain mode text ∧ HasIntent lang text := by
  have nothing : report.jsonMode ∉ [.native, .fallback] := by simp [untested]
  unfold checkJson
  cases json with
  | content text => exact (judge_jsonMode (by decide) untested).trans answers_native.symm
  | failed exc => exact iff_of_false nothing (not_answers (by simp) (by simp))
  | rejected message =>
      cases plain with
      | content text =>
          have judged := @judge_jsonMode lang (report.note ("json_object rejected: " ++ message)) .fallback (by decide)
            text untested
          exact judged.trans answers_fallback.symm
      | _ => exact iff_of_false nothing (not_answers (by simp) (by simp))

theorem checkModel_ok {runs : Int} {model : String} :
    (checkModel lang provider runs model).ok = true ↔ Passes lang provider runs model := by
  generalize streamed : checkStreams (provider.stream model) runs.toNat 0 { model } = report
  have untested : report.jsonMode = .untested := streamed ▸ checkStreams_jsonMode
  have streamOk : report.streamOk = true ↔
      ∃ j, Last (provider.stream model) 0 runs.toNat j ∧ (provider.stream model j).text ≠ "" := by
    rw [← streamed, checkStreams_ok]
    simp
  generalize judged : checkJson lang (provider.json model) (provider.plain model) report = result
  have kept : result.1.streamOk = report.streamOk := judged ▸ checkJson_streamOk _ _ _
  have mode := @checkJson_jsonMode lang report (provider.json model) (provider.plain model) untested
  rw [judged] at mode
  have same : (checkModel lang provider runs model).ok = result.1.ok := by
    simp only [checkModel, streamed, judged]
    cases result with
    | mk report exc => cases exc <;> rfl
  rw [same, Report.ok, Bool.and_eq_true, decide_eq_true_eq, kept, streamOk, mode]
  exact ⟨fun both => ⟨both.1, both.2⟩, fun passes => ⟨passes.stream, passes.json⟩⟩

theorem seen_model (chunks : List Chunk) (report : Report) : (chunks.foldl seen report).model = report.model := by
  induction chunks generalizing report with
  | nil => rfl
  | cons chunk rest ih =>
      rw [List.foldl_cons, ih]
      unfold seen
      split <;> rfl

theorem checkStreams_model : (checkStreams streams left i report).model = report.model := by
  induction left generalizing i report with
  | zero => rfl
  | succ left ih =>
      have chunks := seen_model (streams i).chunks report
      unfold checkStreams checkStream
      cases (streams i).failure with
      | some exc => exact chunks
      | none => exact ih.trans chunks

theorem judge_model (mode : JsonMode) (text : Option String) (report : Report) :
    (judge lang mode text report).1.model = report.model := by
  unfold judge judgeRead
  split <;> rfl

theorem checkModel_model (runs : Int) (model : String) : (checkModel lang provider runs model).model = model := by
  have streamed : (checkStreams (provider.stream model) runs.toNat 0 { model }).model = model := checkStreams_model
  have judged : (checkJson lang (provider.json model) (provider.plain model)
      (checkStreams (provider.stream model) runs.toNat 0 { model })).1.model = model := by
    unfold checkJson
    cases provider.json model with
    | content text => exact (judge_model _ _ _).trans streamed
    | failed exc => exact streamed
    | rejected message =>
        cases provider.plain model with
        | content text => exact (judge_model _ _ _).trans streamed
        | failed exc => exact streamed
        | rejected message => exact streamed
  generalize same : checkJson lang (provider.json model) (provider.plain model)
    (checkStreams (provider.stream model) runs.toNat 0 { model }) = result at judged
  simp only [checkModel, same]
  cases result with
  | mk report exc => cases exc <;> exact judged

/-- What the exit code and the reports say of the provider, in the environment after the file. -/
structure Verdict (lang : Language) (provider : Provider) (args : Args) (env : Environ) (exit : Nat)
    (reports : List Report) : Prop where
  unset : exit = 2 ↔ missing env ≠ [] ∨ chosen args env = []
  passed : exit = 0 ↔ missing env = [] ∧ chosen args env ≠ [] ∧
    ∀ model ∈ chosen args env, Passes lang provider args.runs model
  reported : exit ≠ 2 → reports.map Report.model = Firsts.firsts id (chosen args env)

theorem run_all (models : List String) (runs : Int) :
    (run lang provider (Firsts.firsts id models) runs).all Report.ok = true ↔
      ∀ model ∈ models, Passes lang provider runs model := by
  simp only [run, List.all_map, List.all_eq_true, Function.comp, checkModel_ok]
  constructor
  · intro all model member
    obtain ⟨first, inFirsts, same⟩ := @Firsts.exists_first _ _ _ id _ _ member
    obtain rfl : first = model := same
    exact all first inFirsts
  · exact fun all model member => all model (Firsts.mem_of_mem_firsts member)

theorem exitWith_verdict (args : Args) (env : Environ) :
    Verdict lang provider args env (exitWith lang provider args env).1 (exitWith lang provider args env).2 := by
  unfold exitWith
  by_cases unset : missing env ≠ []
  · rw [if_pos unset]
    exact ⟨by simp [unset], by simp [unset], by simp⟩
  rw [if_neg unset]
  by_cases nothing : chosen args env = []
  · rw [if_pos nothing]
    exact ⟨by simp [nothing], by simp [nothing], by simp⟩
  rw [if_neg nothing]
  dsimp only
  have all := @run_all lang provider (chosen args env) args.runs
  have models : (run lang provider (Firsts.firsts id (chosen args env)) args.runs).map Report.model =
      Firsts.firsts id (chosen args env) := by
    rw [run, List.map_map]
    exact (List.map_congr_left fun model _ => checkModel_model args.runs model).trans (List.map_id _)
  by_cases passed : ∀ model ∈ chosen args env, Passes lang provider args.runs model
  · rw [if_pos (all.mpr passed)]
    exact ⟨by simp [unset, nothing], iff_of_true rfl ⟨not_not.mp unset, nothing, passed⟩, fun _ => models⟩
  · rw [if_neg (mt all.mp passed)]
    exact ⟨by simp [unset, nothing], iff_of_false (by simp) fun both => passed both.2.2, fun _ => models⟩

/-- The exit code is zero just if every model that is asked for passes. A variable that was
    set keeps its value, and the first of two lines for one name counts. -/
theorem main_verdict {args : Args} {file : Option Str} {env : Environ} {exit : Nat} {reports : List Report}
    (ended : main lang provider args file env = some (exit, reports)) :
    ∃ after : Environ, (∀ name, after.lookup name = (env.lookup name).or ((assigned file).lookup name)) ∧
      Verdict lang provider args after exit reports := by
  obtain ⟨after, loaded, same⟩ := Option.map_eq_some_iff.mp ended
  have verdict := @exitWith_verdict lang provider args after
  rw [same] at verdict
  exact ⟨after, setDefaults_lookup loaded, verdict⟩

def otherIntent : Str := "\x7b\"intent\": \"other\"\x7d".toList

/-- On the one answer of `smallProvider`. -/
def smallLanguage : Language where
  loads text := if text = otherIntent then .value (.obj [("intent", .str "other")]) else .notJson
  repr text := .ofList text

/-- It takes no `response_format`, and talks around its JSON. -/
def smallProvider : Provider where
  stream _ _ := ⟨[⟨none, some " hel"⟩, ⟨none, some "lo"⟩, ⟨some ⟨7, 2⟩, none⟩], none⟩
  json _ := .rejected "response_format"
  plain _ := .content (some ("Sure: \x7b\"intent\": \"other\"\x7d."))

def smallFile : Option Str := some "LLM_BASE_URL = http://local # local\nLLM_API_KEY=other\nCHAT_MODEL=a".toList

def smallReport : Report where
  model := "a"
  streamOk := true
  usageInStream := true
  jsonMode := .fallback
  promptTokens := some 7
  completionTokens := some 2
  sample := "hello"
  errors := ["json_object rejected: response_format"]

theorem main_small : main smallLanguage smallProvider ⟨[], 2⟩ smallFile [("LLM_API_KEY", "key")] =
    some (0, [smallReport]) := by
  rfl

theorem main_verdict_small : ∃ after : Environ,
    (∀ name, after.lookup name = ([("LLM_API_KEY", "key")].lookup name).or ((assigned smallFile).lookup name)) ∧
      Verdict smallLanguage smallProvider ⟨[], 2⟩ after 0 [smallReport] :=
  main_verdict main_small

theorem slice_append (text : Str) (start : Nat) (stop : Int) (inside : start ≤ text.length) :
    slice text start stop = (text.drop start).take (bound text.length stop - start) := by
  have here : bound text.length start = start := by
    unfold bound
    rw [if_neg (by omega), Int.toNat_natCast, Nat.min_eq_left inside]
  rw [slice, here, List.drop_take]

theorem braced_opened {text : Str} {i : Nat} (opening : text.findIdx? (· == '\x7b') = some i) :
    braced text = [] ∨ ∃ rest, braced text = '\x7b' :: rest := by
  obtain ⟨inside, isBrace, -⟩ := List.findIdx?_eq_some_iff_getElem.mp opening
  have found : find '\x7b' text = (i : Int) := by rw [find, opening]
  rw [braced, found, slice_append _ _ _ inside.le, List.drop_eq_getElem_cons inside, beq_iff_eq.mp isBrace]
  cases bound text.length (rfind '\x7d' text + 1) - i with
  | zero => exact .inl rfl
  | succ n => exact .inr ⟨_, rfl⟩

/-- Without an opening brace nothing is left but a closing one that ends the text. -/
theorem braced_unopened {text : Str} (opening : text.findIdx? (· == '\x7b') = none) :
    braced text = [] ∨ braced text = ['\x7d'] := by
  have found : find '\x7b' text = -1 := by rw [find, opening]
  have start : bound text.length (-1) = text.length - 1 := by
    unfold bound
    rw [if_pos (by decide)]
    omega
  rw [braced, found, slice, start]
  cases closing : text.reverse.findIdx? (· == '\x7d') with
  | none =>
      have last : rfind '\x7d' text = -1 := by rw [rfind, closing]
      rw [last]
      exact .inl (by simp [bound])
  | some k =>
      obtain ⟨inside, isBrace, -⟩ := List.findIdx?_eq_some_iff_getElem.mp closing
      rw [List.length_reverse] at inside
      have last : rfind '\x7d' text = (text.length : Int) - 1 - k := by rw [rfind, closing]
      have stop : bound text.length (rfind '\x7d' text + 1) = text.length - k := by
        rw [last]
        unfold bound
        rw [if_neg (by omega)]
        omega
      rw [stop]
      cases k with
      | zero =>
          have final : text.drop (text.length - 1) = ['\x7d'] := by
            rw [List.drop_eq_getElem_cons (by omega), List.drop_eq_nil_of_le (by omega)]
            simpa using isBrace
          exact .inr (by simpa using final)
      | succ k =>
          apply Or.inl
          apply List.drop_eq_nil_of_le
          rw [List.length_take]
          omega

/-- What is documented of JSON: a text that begins with a brace is read as an object. -/
structure Reads (lang : Language) : Prop where
  nothing : lang.loads [] = .notJson
  closing : lang.loads ['\x7d'] = .notJson
  object : ∀ rest value, lang.loads ('\x7b' :: rest) = .value value → ∃ fields, value = .obj fields

/-- What is between the braces of a text is read as an object if as anything. -/
theorem braced_object (reads : Reads lang) {text : Str} {value : Json} (loaded : lang.loads (braced text) = .value value) :
    ∃ fields, value = .obj fields := by
  have empty : braced text ≠ [] := by
    intro same
    rw [same, reads.nothing] at loaded
    cases loaded
  cases opening : text.findIdx? (· == '\x7b') with
  | none =>
      obtain same := (braced_unopened opening).resolve_left empty
      rw [same, reads.closing] at loaded
      cases loaded
  | some i =>
      obtain ⟨rest, same⟩ := (braced_opened opening).resolve_left empty
      exact reads.object rest value (same ▸ loaded)

/-- Whatever its braces are, the text of an answer is judged if it is legible. -/
theorem judge_raises_iff (reads : Reads lang) (mode : JsonMode) (text : Option String) (report : Report) :
    (judge lang mode text report).2 = none ↔ Legible lang text := by
  unfold judge Legible
  cases loaded : lang.loads (braced (answerText text)) with
  | notJson => simp [judgeRead]
  | raised exc => simp [judgeRead]
  | value value =>
      obtain ⟨fields, rfl⟩ := braced_object reads loaded
      simp [judgeRead]

/-- The check of the JSON answer raises just if the provider gives no legible one. -/
theorem checkJson_raises_iff (reads : Reads lang) (json plain : Completion) (report : Report) :
    (checkJson lang json plain report).2 = none ↔ ∃ mode text, Answers json plain mode text ∧ Legible lang text := by
  unfold checkJson
  cases json with
  | content text => exact (judge_raises_iff reads _ _ _).trans answers_native.symm
  | failed exc => exact iff_of_false (by simp) (not_answers (by simp) (by simp))
  | rejected message =>
      cases plain with
      | content text => exact (judge_raises_iff reads _ _ _).trans answers_fallback.symm
      | _ => exact iff_of_false (by simp) (not_answers (by simp) (by simp))

theorem reads_small : Reads smallLanguage where
  nothing := rfl
  closing := rfl
  object rest value loaded := by
    unfold smallLanguage at loaded
    dsimp only at loaded
    split at loaded
    · exact ⟨_, (Loaded.value.inj loaded).symm⟩
    · cases loaded

theorem checkJson_raises_iff_small :
    (checkJson smallLanguage (smallProvider.json "a") (smallProvider.plain "a") { model := "a" }).2 = none ↔
      ∃ mode text, Answers (smallProvider.json "a") (smallProvider.plain "a") mode text ∧
        Legible smallLanguage text :=
  checkJson_raises_iff reads_small _ _ _

end Nipoto.CheckProvider
