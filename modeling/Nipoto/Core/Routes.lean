import Nipoto.Core.Schema

/-! # The model routes

config/routes.yaml as app/core/policy.py loads it at startup: the variables are
put in, the models check the document, and `require_models` asks for a model in
every route. What happens to a reference that is not replaced is said in terms of
the document alone.
-/

namespace Nipoto.Core

open Text

structure Provider where
  baseUrl : Option Str
  apiKey : Option Str

structure Route where
  provider : Str
  model : Option Str
  maxTokens : Int
  temperature : Number
  timeoutS : Number

structure EmbeddingConfig where
  model : Str
  device : Str
  dim : Int

structure RerankerConfig where
  model : Str
  enabled : Bool

structure Thresholds where
  tLow : Number
  tHigh : Number

structure Price where
  input : Number
  output : Number

structure Routes where
  providers : List (Str × Provider)
  routes : List (Str × Route)
  embedding : EmbeddingConfig
  reranker : RerankerConfig
  thresholds : Thresholds
  pricing : List (Str × Price)

def routeNames : List Str := ["draft.generate".toList, "auto.generate".toList, "router.classify".toList]

structure Numbers where
  int : Reader Int
  float : Reader Number
  bool : Reader Bool

def atLeastZero (n : Number) : Bool := (Number.finite 0).le n

def aboveZero (n : Number) : Bool := (Number.finite 0).lt n

def provider : Check Provider :=
  Fields.empty
    |>.optional "base_url" none optionalText
    |>.optional "api_key" none optionalText
    |>.model fun ((_, baseUrl), apiKey) => { baseUrl, apiKey }

section
variable (numbers : Numbers)

def route : Check Route :=
  Fields.empty
    |>.required "provider" text
    |>.optional "model" none optionalText
    |>.required "max_tokens" (number numbers.int (0 < ·))
    |>.required "temperature" (number numbers.float fun n => atLeastZero n && n.le (.finite 2))
    |>.required "timeout_s" (number numbers.float aboveZero)
    |>.model fun (((((_, provider), model), maxTokens), temperature), timeoutS) =>
        { provider, model, maxTokens, temperature, timeoutS }

def embeddingConfig : Check EmbeddingConfig :=
  Fields.empty
    |>.required "model" text
    |>.optional "device" "cpu".toList text
    |>.optional "dim" 1024 (number numbers.int (0 < ·))
    |>.model fun (((_, model), device), dim) => { model, device, dim }

def rerankerConfig : Check RerankerConfig :=
  Fields.empty
    |>.required "model" text
    |>.optional "enabled" false (flag numbers.bool)
    |>.model fun ((_, model), enabled) => { model, enabled }

/-- `_ordered`. -/
def Thresholds.ordered (t : Thresholds) : Option Fault :=
  if t.tLow.lt t.tHigh then none else some (.unordered t.tLow t.tHigh)

def thresholds : Check Thresholds :=
  Fields.empty
    |>.required "t_low" (number numbers.float fun _ => true)
    |>.required "t_high" (number numbers.float fun _ => true)
    |>.model (fun ((_, tLow), tHigh) => { tLow, tHigh : Thresholds })
    |>.after Thresholds.ordered

def price : Check Price :=
  Fields.empty
    |>.required "input" (number numbers.float atLeastZero)
    |>.required "output" (number numbers.float atLeastZero)
    |>.model fun ((_, input), output) => { input, output }

/-- `_routes_are_complete`. -/
def Routes.complete (r : Routes) : Option Fault :=
  match routeNames.filter fun name => name ∉ r.routes.map Prod.fst with
  | [] =>
      match r.routes.find? fun e => e.2.provider ∉ r.providers.map Prod.fst with
      | some (name, route) => some (.unknownProvider name route.provider)
      | none => none
  | missing => some (.missingRoutes missing)

def routes : Check Routes :=
  Fields.empty
    |>.required "providers" (mapping provider)
    |>.required "routes" (mapping (route numbers))
    |>.required "embedding" (embeddingConfig numbers)
    |>.required "reranker" (rerankerConfig numbers)
    |>.required "thresholds" (thresholds numbers)
    |>.optional "pricing" [] (mapping (price numbers))
    |>.model (fun ((((((_, providers), routes), embedding), reranker), thresholds), pricing) =>
        { providers, routes, embedding, reranker, thresholds, pricing : Routes })
    |>.after Routes.complete

end

/-- A value that a YAML document can have. -/
structure Tree where
  value : Yaml
  distinct : value.Distinct

inductive File where
  | absent
  | malformed (exc : Str)
  | yaml (tree : Tree)

inductive ConfigError where
  /-- "Config file not found: {path}" -/
  | notFound (path : Str)
  /-- "{path} is not valid YAML: {exc}" -/
  | notYaml (path exc : Str)
  /-- "{path} must contain a mapping at the top level" -/
  | notMapping (path : Str)
  /-- "{path} is invalid:" and what pydantic reports -/
  | invalid (path : Str) (problems : List Problem)
  /-- "No model configured for route(s): {names}. Set CHAT_MODEL and SMALL_MODEL (T0.3), or run with
      LLM_PROVIDER=fake." -/
  | noModel (names : List Str)

def loadYaml (path : Str) : File → Except ConfigError Tree
  | .absent => .error (.notFound path)
  | .malformed exc => .error (.notYaml path exc)
  | .yaml tree =>
      match tree.value with
      | .map _ => .ok tree
      | _ => .error (.notMapping path)

def loadRoutes (numbers : Numbers) (env : Env) (path : Str) (file : File) : Except ConfigError Routes := do
  let data ← loadYaml path file
  match routes numbers [] (expandEnv env data.value) with
  | .ok routes => return routes
  | .error problems => .error (.invalid path problems)

/-- `not route.model`. -/
def Route.unnamed (r : Route) : Bool := r.model.getD [] = []

/-- `a <= b` for strings. -/
def notAfter (a b : Str) : Bool := !List.lex b a fun x y => decide (x.toNat < y.toNat)

def Routes.requireModels (r : Routes) : Except ConfigError Unit :=
  match (r.routes.filter fun e => e.2.unnamed).map Prod.fst with
  | [] => .ok ()
  | missing => .error (.noModel (missing.mergeSort notAfter))

/-- What `create_app` does about the routes, for a real provider. -/
def startRoutes (numbers : Numbers) (env : Env) (path : Str) (file : File) : Except ConfigError Routes := do
  let routes ← loadRoutes numbers env path file
  routes.requireModels
  return routes

def Provider.strings (p : Provider) : List Str := p.baseUrl.toList ++ p.apiKey.toList

def Route.strings (r : Route) : List Str := r.provider :: r.model.toList

def EmbeddingConfig.strings (c : EmbeddingConfig) : List Str := [c.model, c.device]

/-- All strings of the routes, the names of providers, routes and priced models included. -/
def Routes.strings (r : Routes) : List Str :=
  r.providers.flatMap (fun e => e.1 :: e.2.strings) ++ r.routes.flatMap (fun e => e.1 :: e.2.strings) ++
    r.embedding.strings ++ [r.reranker.model] ++ r.pricing.map Prod.fst

open Fields

theorem provider_shows : provider.Shows Provider.strings := by
  have first := optional_shows empty_shows "base_url" none optionalText_shows (by simp)
  have last := optional_shows first "api_key" none optionalText_shows (by simp)
  exact model_shows last rfl fun _ => rfl

variable (numbers : Numbers)

theorem route_shows : (route numbers).Shows Route.strings := by
  have first := required_shows empty_shows "provider" text_shows
  have second := optional_shows first "model" none optionalText_shows (by simp)
  have third := required_shows second "max_tokens" (number_shows numbers.int (0 < ·))
  have fourth := required_shows third "temperature"
    (number_shows numbers.float fun n => atLeastZero n && n.le (.finite 2))
  have last := required_shows fourth "timeout_s" (number_shows numbers.float aboveZero)
  exact model_shows last rfl fun _ => by simp [Route.strings]

theorem embeddingConfig_shows : (embeddingConfig numbers).Shows EmbeddingConfig.strings := by
  have first := required_shows empty_shows "model" text_shows
  have second := optional_shows first "device" "cpu".toList text_shows (by decide)
  have last := optional_shows second "dim" 1024 (number_shows numbers.int (0 < ·)) (by simp)
  exact model_shows last rfl fun _ => rfl

theorem rerankerConfig_shows : (rerankerConfig numbers).Shows fun c => [c.model] := by
  have first := required_shows empty_shows "model" text_shows
  have last := optional_shows first "enabled" false (number_shows numbers.bool fun _ => true) (by simp)
  exact model_shows last rfl fun _ => rfl

theorem thresholds_shows : (thresholds numbers).Shows fun _ => [] := by
  have first := required_shows empty_shows "t_low" (number_shows numbers.float fun _ => true)
  have last := required_shows first "t_high" (number_shows numbers.float fun _ => true)
  exact after_shows (model_shows last rfl fun _ => by rfl) _

theorem price_shows : (price numbers).Shows fun _ => [] := by
  have first := required_shows empty_shows "input" (number_shows numbers.float atLeastZero)
  have last := required_shows first "output" (number_shows numbers.float atLeastZero)
  exact model_shows last rfl fun _ => by rfl

theorem routes_shows : (routes numbers).Shows Routes.strings := by
  have first := required_shows empty_shows "providers" (mapping_shows provider_shows)
  have second := required_shows first "routes" (mapping_shows (route_shows numbers))
  have third := required_shows second "embedding" (embeddingConfig_shows numbers)
  have fourth := required_shows third "reranker" (rerankerConfig_shows numbers)
  have fifth := required_shows fourth "thresholds" (thresholds_shows numbers)
  have last := optional_shows fifth "pricing" [] (mapping_shows (price_shows numbers)) (by simp)
  refine after_shows (model_shows last rfl ?_) _
  intro found
  simp [Routes.strings, List.map_eq_flatMap]

theorem loadRoutes_ok {env : Env} {path : Str} {tree : Tree} {r : Routes}
    (loaded : loadRoutes numbers env path (.yaml tree) = .ok r) :
    routes numbers [] (expandEnv env tree.value) = .ok r := by
  unfold loadRoutes loadYaml at loaded
  cases top : tree.value with
  | map entries =>
      simp only [top, bind, Except.bind] at loaded
      split at loaded
      next found =>
        obtain rfl := Except.ok.inj loaded
        exact top ▸ found
      next => cases loaded
  | _ => simp [top, bind, Except.bind] at loaded

/-- A document that passes leaves a reference in the routes just if one of its keys has one,
    or if the pieces of one of its texts meet. -/
theorem startRoutes_iff {env : Env} (harmless : Harmless env) {path : Str} {tree : Tree} {r : Routes}
    (started : startRoutes numbers env path (.yaml tree) = .ok r) :
    (∀ s ∈ r.strings, ¬ HasReference s) ↔
      ¬ tree.value.Any HasReference fun s => Meeting (pieces env s) := by
  have loaded : loadRoutes numbers env path (.yaml tree) = .ok r := by
    unfold startRoutes at started
    cases loaded : loadRoutes numbers env path (.yaml tree) with
    | error e => simp [loaded, bind, Except.bind] at started
    | ok found =>
        cases named : found.requireModels with
        | error e => simp [loaded, named, bind, Except.bind] at started
        | ok => simpa [loaded, named, bind, Except.bind, pure, Except.pure] using started
  rw [← any_expandEnv harmless, routes_shows numbers (distinct_expandEnv env tree.distinct) (loadRoutes_ok numbers loaded)]
  simp only [not_exists, not_and]

/-- The readers for values that are numbers and flags already. -/
def plainNumbers : Numbers where
  int := ⟨fun | .int n => some n | _ => none, fun value _ _ => by cases value <;> trivial⟩
  float := ⟨fun | .int n => some (.finite n) | .float x => some x | _ => none, fun value _ _ => by cases value <;> trivial⟩
  bool := ⟨fun | .bool b => some b | _ => none, fun value _ _ => by cases value <;> trivial⟩

def entriesOf (entries : List (String × Yaml)) : Yaml := .map (entries.map fun e => (e.1.toList, e.2))

def shippedRoute (model : String) (maxTokens : Int) (temperature : Rat) (timeoutS : Int) : Yaml :=
  entriesOf [
    ("provider", .str "main".toList), ("model", .str model.toList), ("max_tokens", .int maxTokens),
    ("temperature", .float (.finite temperature)), ("timeout_s", .int timeoutS)]

/-- config/routes.yaml, with a given reference to the chat model. -/
def shipped (chatModel : String) : Tree where
  value := entriesOf [
    ("providers", entriesOf [
      ("main", entriesOf [("base_url", .str "${LLM_BASE_URL}".toList), ("api_key", .str "${LLM_API_KEY}".toList)])]),
    ("routes", entriesOf [
      ("draft.generate", shippedRoute chatModel 600 (3 / 10) 30),
      ("auto.generate", shippedRoute chatModel 400 (1 / 5) 25),
      ("router.classify", shippedRoute "${SMALL_MODEL}" 120 0 5)]),
    ("embedding", entriesOf [("model", .str "BAAI/bge-m3".toList), ("device", .str "cpu".toList), ("dim", .int 1024)]),
    ("reranker", entriesOf [("model", .str "BAAI/bge-reranker-v2-m3".toList), ("enabled", .bool false)]),
    ("thresholds", entriesOf [("t_low", .float (.finite (7 / 20))), ("t_high", .float (.finite (11 / 20)))]),
    ("pricing", entriesOf [])]
  distinct := by
    simp only [entriesOf, shippedRoute, List.map_cons, List.map_nil, Yaml.Distinct, DistinctEntries, and_true]
    decide

def testEnv : Env := fun name =>
  if name = "CHAT_MODEL".toList ∨ name = "SMALL_MODEL".toList then some "test-model".toList else none

theorem testEnv_harmless : Harmless testEnv := by
  intro name value found
  simp only [testEnv, Option.ite_none_right_eq_some, Option.some.injEq] at found
  rw [← found.2]
  decide

def startShipped (chatModel : String) : Except ConfigError Routes :=
  startRoutes plainNumbers testEnv "routes.yaml".toList (.yaml (shipped chatModel))

theorem startShipped_ok (chatModel : String) {p : Routes → Bool}
    (found : (startShipped chatModel).toOption.any p = true) : ∃ r, startShipped chatModel = .ok r ∧ p r = true := by
  cases started : startShipped chatModel with
  | error e =>
      rw [started] at found
      cases found
  | ok r =>
      rw [started] at found
      exact ⟨r, rfl, found⟩

theorem startRoutes_shipped :
    ∃ r, startShipped "${CHAT_MODEL}" = .ok r ∧ (∀ s ∈ r.strings, ¬ HasReference s) ∧
      ¬ (shipped "${CHAT_MODEL}").value.Any HasReference fun s => Meeting (pieces testEnv s) := by
  obtain ⟨r, started, plain⟩ :=
    startShipped_ok "${CHAT_MODEL}" (p := fun r => r.strings.all fun s => '$' ∉ s) (by decide +kernel)
  have clean : ∀ s ∈ r.strings, ¬ HasReference s := fun s member =>
    no_reference (by simpa using List.all_eq_true.mp plain s member)
  exact ⟨r, started, clean, (startRoutes_iff plainNumbers testEnv_harmless started).mp clean⟩

/-- A name in lower case is no reference for `_ENV_REF`, and nothing asks later. -/
theorem lower_case_reference_kept :
    ¬ ∀ (numbers : Numbers) (env : Env) (path : Str) (tree : Tree) (r : Routes), Harmless env →
      startRoutes numbers env path (.yaml tree) = .ok r → ∀ s ∈ r.strings, ¬ HasReference s := by
  intro claim
  obtain ⟨r, started, kept⟩ :=
    startShipped_ok "${chat_model}" (p := fun r => "${chat_model}".toList ∈ r.strings) (by decide +kernel)
  exact claim plainNumbers testEnv _ _ r testEnv_harmless started _ (of_decide_eq_true kept)
    ⟨[], "chat_model".toList, [], rfl⟩

end Nipoto.Core
