import Nipoto.Core.PolicyFile
import Nipoto.General.Fallible

/-! # Startup

`create_app` of app/main.py up to the application: the log level, the policy, the
routes, then the models of a real provider. The service starts with a policy and
routes just if they are valid, and then each name that the pipelines use has a route
that can be called.
-/

namespace Nipoto.Core

open Text PolicyFile Fields

structure Route.Valid (r : Route) : Prop where
  maxTokens : 0 < r.maxTokens
  temperature : atLeastZero r.temperature = true ∧ r.temperature.le (.finite 2) = true
  timeout : aboveZero r.timeoutS = true

structure Price.Valid (p : Price) : Prop where
  input : atLeastZero p.input = true
  output : atLeastZero p.output = true

structure Routes.Valid (r : Routes) : Prop where
  providers : (r.providers.map Prod.fst).Nodup
  names : (r.routes.map Prod.fst).Nodup
  priced : (r.pricing.map Prod.fst).Nodup
  routes : ∀ e ∈ r.routes, e.2.Valid
  prices : ∀ e ∈ r.pricing, e.2.Valid
  dim : 0 < r.embedding.dim
  ordered : r.thresholds.tLow.lt r.thresholds.tHigh = true
  required : ∀ name ∈ routeNames, name ∈ r.routes.map Prod.fst
  known : ∀ e ∈ r.routes, e.2.provider ∈ r.providers.map Prod.fst

def Provider.dump (p : Provider) : Yaml :=
  .map [("base_url".toList, dumpOptional p.baseUrl), ("api_key".toList, dumpOptional p.apiKey)]

def Route.dump (r : Route) : Yaml :=
  .map [("provider".toList, .str r.provider), ("model".toList, dumpOptional r.model), ("max_tokens".toList, .int r.maxTokens),
    ("temperature".toList, .float r.temperature), ("timeout_s".toList, .float r.timeoutS)]

def EmbeddingConfig.dump (c : EmbeddingConfig) : Yaml :=
  .map [("model".toList, .str c.model), ("device".toList, .str c.device), ("dim".toList, .int c.dim)]

def RerankerConfig.dump (c : RerankerConfig) : Yaml :=
  .map [("model".toList, .str c.model), ("enabled".toList, .bool c.enabled)]

def Thresholds.dump (t : Thresholds) : Yaml :=
  .map [("t_low".toList, .float t.tLow), ("t_high".toList, .float t.tHigh)]

def Price.dump (p : Price) : Yaml := .map [("input".toList, .float p.input), ("output".toList, .float p.output)]

def Routes.dump (r : Routes) : Yaml :=
  .map [("providers".toList, .map (dumpEntries Provider.dump r.providers)),
    ("routes".toList, .map (dumpEntries Route.dump r.routes)), ("embedding".toList, r.embedding.dump),
    ("reranker".toList, r.reranker.dump), ("thresholds".toList, r.thresholds.dump),
    ("pricing".toList, .map (dumpEntries Price.dump r.pricing))]

theorem provider_exact : provider.Exact (fun _ => True) Provider.dump := by
  have first := optional_exact empty_exact "base_url" none optionalText_exact trivial
  have last := optional_exact first "api_key" none optionalText_exact trivial
  exact (model_exact last rfl (fun p : Provider => (((), p.baseUrl), p.apiKey)) (fun _ => rfl) fun _ => rfl).iff
    fun _ => by simp

section

variable {numbers : Numbers} (literal : Literal numbers)

include literal

theorem route_exact : (route numbers).Exact Route.Valid Route.dump := by
  have first := required_exact empty_exact "provider" text_exact
  have second := optional_exact first "model" none optionalText_exact trivial
  have third := required_exact second "max_tokens" (number_exact literal.int (0 < ·))
  have fourth := required_exact third "temperature"
    (number_exact literal.float fun n => atLeastZero n && n.le (.finite 2))
  have last := required_exact fourth "timeout_s" (number_exact literal.float aboveZero)
  refine (model_exact last rfl (fun r : Route => ((((((), r.provider), r.model), r.maxTokens), r.temperature), r.timeoutS))
    (fun _ => rfl) fun _ => rfl).iff fun r => ?_
  simp only [true_and, Bool.and_eq_true, decide_eq_true_eq]
  exact ⟨fun ⟨⟨tokens, temperature⟩, timeout⟩ => ⟨tokens, temperature, timeout⟩,
    fun ⟨tokens, temperature, timeout⟩ => ⟨⟨tokens, temperature⟩, timeout⟩⟩

theorem embeddingConfig_exact : (embeddingConfig numbers).Exact (fun c => 0 < c.dim) EmbeddingConfig.dump := by
  have first := required_exact empty_exact "model" text_exact
  have second := optional_exact first "device" "cpu".toList text_exact trivial
  have last := optional_exact second "dim" 1024 (number_exact literal.int (0 < ·)) (by decide)
  exact (model_exact last rfl (fun c : EmbeddingConfig => ((((), c.model), c.device), c.dim)) (fun _ => rfl)
    fun _ => rfl).iff fun _ => by simp

theorem rerankerConfig_exact : (rerankerConfig numbers).Exact (fun _ => True) RerankerConfig.dump := by
  have first := required_exact empty_exact "model" text_exact
  have last := optional_exact first "enabled" false (number_exact literal.bool fun _ => true) rfl
  exact (model_exact last rfl (fun c : RerankerConfig => (((), c.model), c.enabled)) (fun _ => rfl) fun _ => rfl).iff
    fun _ => by simp

theorem thresholds_exact : (thresholds numbers).Exact (fun t => t.tLow.lt t.tHigh = true) Thresholds.dump := by
  have first := required_exact empty_exact "t_low" (number_exact literal.float fun _ => true)
  have last := required_exact first "t_high" (number_exact literal.float fun _ => true)
  refine (after_exact (model_exact last rfl (fun t : Thresholds => (((), t.tLow), t.tHigh)) (fun _ => rfl)
    fun _ => rfl) Thresholds.ordered).iff fun t => ?_
  simp [Thresholds.ordered]

theorem price_exact : (price numbers).Exact Price.Valid Price.dump := by
  have first := required_exact empty_exact "input" (number_exact literal.float atLeastZero)
  have last := required_exact first "output" (number_exact literal.float atLeastZero)
  refine (model_exact last rfl (fun p : Price => (((), p.input), p.output)) (fun _ => rfl) fun _ => rfl).iff fun p => ?_
  exact ⟨fun ⟨⟨_, input⟩, output⟩ => ⟨input, output⟩, fun ⟨input, output⟩ => ⟨⟨trivial, input⟩, output⟩⟩

end

theorem complete_none {r : Routes} : r.complete = none ↔
    (∀ name ∈ routeNames, name ∈ r.routes.map Prod.fst) ∧ ∀ e ∈ r.routes, e.2.provider ∈ r.providers.map Prod.fst := by
  have missing : (routeNames.filter fun name => name ∉ r.routes.map Prod.fst) = [] ↔
      ∀ name ∈ routeNames, name ∈ r.routes.map Prod.fst := by
    simp [List.filter_eq_nil_iff]
  have unknown : (r.routes.find? fun e => e.2.provider ∉ r.providers.map Prod.fst) = none ↔
      ∀ e ∈ r.routes, e.2.provider ∈ r.providers.map Prod.fst := by
    simp [List.find?_eq_none]
  rw [← missing, ← unknown]
  unfold Routes.complete
  cases first : routeNames.filter fun name => name ∉ r.routes.map Prod.fst with
  | cons name rest => simp
  | nil =>
      cases second : r.routes.find? fun e => e.2.provider ∉ r.providers.map Prod.fst with
      | none => simp
      | some e => simp

theorem routes_exact {numbers : Numbers} (literal : Literal numbers) :
    (routes numbers).Exact Routes.Valid Routes.dump := by
  have first := required_exact empty_exact "providers" (mapping_exact provider_exact)
  have second := required_exact first "routes" (mapping_exact (route_exact literal))
  have third := required_exact second "embedding" (embeddingConfig_exact literal)
  have fourth := required_exact third "reranker" (rerankerConfig_exact literal)
  have fifth := required_exact fourth "thresholds" (thresholds_exact literal)
  have last := optional_exact fifth "pricing" [] (mapping_exact (price_exact literal)) (by simp)
  refine (after_exact (model_exact last rfl (fun r : Routes =>
    (((((((), r.providers), r.routes), r.embedding), r.reranker), r.thresholds), r.pricing)) (fun _ => rfl)
    fun _ => rfl) Routes.complete).iff fun r => ?_
  simp only [complete_none, true_and, and_true, implies_true]
  constructor
  · rintro ⟨⟨⟨⟨⟨providers, names, each⟩, dim⟩, ordered⟩, priced, prices⟩, required, known⟩
    exact ⟨providers, names, priced, each, prices, dim, ordered, required, known⟩
  · rintro ⟨providers, names, priced, each, prices, dim, ordered, required, known⟩
    exact ⟨⟨⟨⟨⟨providers, names, each⟩, dim⟩, ordered⟩, priced, prices⟩, required, known⟩

section

open Text.Regex

theorem hasReference_of_match {before rest : Str} {d : Cursor} (found : envRef.matchAt before rest = some d) :
    HasReference rest := by
  obtain ⟨opened, first, named, ⟨inside, name, rfl⟩, closed, last, -⟩ := Pattern.matchAt_sound found
  obtain ⟨afterOpen, split, rfl⟩ := matches_literal.mp first
  obtain ⟨x, afterName, inner, -, -, rfl⟩ := matches_many.mp name
  obtain ⟨c, b, brace, isBrace, -⟩ := last
  obtain rfl : c = '}' := by simpa using isBrace
  simp only at split inner brace
  exact ⟨[], x, b, by rw [split, inner, brace]; rfl⟩

theorem subFrom_plain (repl : Cursor → Str) (before rest : Str) (plain : ¬ HasReference rest) :
    subFrom envRef repl 0 before rest = rest := by
  induction rest generalizing before with
  | nil => rfl
  | cons c rest ih =>
      have here : envRef.matchAt before (c :: rest) = none := by
        cases found : envRef.matchAt before (c :: rest) with
        | none => rfl
        | some d => exact absurd (hasReference_of_match found) plain
      have later : ¬ HasReference rest := by
        rintro ⟨a, x, b, rfl⟩
        exact plain ⟨c :: a, x, b, rfl⟩
      rw [subFrom_of_none here, ih _ later]

theorem expandText_plain (env : Env) {s : Str} (plain : ¬ HasReference s) : expandText env s = .str s := by
  have whole : fullReference s = none := by
    unfold fullReference
    cases found : envRef.matchAt [] s with
    | none => rfl
    | some d => exact absurd (hasReference_of_match found) plain
  rw [expandText, whole, sub, subFrom_plain _ _ _ plain]

end

mutual
theorem expandEnv_plain (env : Env) : ∀ {d : Yaml}, ¬ d.Any HasReference HasReference → expandEnv env d = d
  | .str _, plain => expandText_plain env plain
  | .map _, plain => congrArg Yaml.map (expandEntries_plain env plain)
  | .seq _, plain => congrArg Yaml.seq (expandItems_plain env plain)
  | .null, _ | .bool _, _ | .int _, _ | .float _, _ | .date _, _ => rfl

theorem expandItems_plain (env : Env) : ∀ {items : List Yaml}, ¬ AnyItem HasReference HasReference items →
    expandItems env items = items
  | [], _ => rfl
  | item :: rest, plain => by
      have both : ¬ (item.Any HasReference HasReference ∨ AnyItem HasReference HasReference rest) := plain
      obtain ⟨here, later⟩ := not_or.mp both
      rw [expandItems, expandEnv_plain env here, expandItems_plain env later]

theorem expandEntries_plain (env : Env) : ∀ {entries : List (Str × Yaml)},
    ¬ AnyEntry HasReference HasReference entries → expandEntries env entries = entries
  | [], _ => rfl
  | (name, item) :: rest, plain => by
      have both : ¬ (HasReference name ∨ item.Any HasReference HasReference ∨
        AnyEntry HasReference HasReference rest) := plain
      obtain ⟨-, here, later⟩ := not_or.mp both |>.imp_right not_or.mp
      rw [expandEntries, expandEnv_plain env here, expandEntries_plain env later]
end

/-- "Unknown route {name}" -/
structure UnknownRoute where
  name : Str

def Routes.route (r : Routes) (name : Str) : Except UnknownRoute Route :=
  match r.routes.lookup name with
  | some route => .ok route
  | none => .error { name }

inductive LlmProvider where
  | fake
  | openaiCompat
  deriving DecidableEq

/-- What `create_app` reads of the settings before there is an application. -/
structure StartSettings where
  /-- The validator of the settings has put it in upper case. -/
  logLevel : Str
  llmProvider : LlmProvider
  policyFile : Str
  routesFile : Str

inductive StartError where
  /-- "Unknown level" of the standard library. -/
  | logging (level : Str)
  | policy (error : PolicyError)
  | routes (error : ConfigError)

structure App where
  policy : PolicyFile.Policy
  routes : Routes

variable (numbers : Numbers) (lower : Str → Str)

/-- The names of `logging.getLevelNamesMapping()`. -/
def levelNames : List Str :=
  ["CRITICAL".toList, "FATAL".toList, "ERROR".toList, "WARN".toList, "WARNING".toList, "INFO".toList, "DEBUG".toList,
    "NOTSET".toList]

/-- `configure_logging`, by whether it raises. -/
def configureLogging (level : Str) : Except StartError Unit :=
  if level ∈ levelNames then .ok () else .error (.logging level)

/-- `routes.require_models()` for a real provider. -/
def requireModels (settings : StartSettings) (r : Routes) : Except ConfigError Unit :=
  if settings.llmProvider = .fake then .ok () else r.requireModels

def createApp (env : Env) (files : Str → File) (settings : StartSettings) : Except StartError App := do
  configureLogging settings.logLevel
  let policy ← (loadPolicy numbers lower settings.policyFile (files settings.policyFile)).mapError .policy
  let routes ← (loadRoutes numbers env settings.routesFile (files settings.routesFile)).mapError .routes
  (requireModels settings routes).mapError .routes
  return { policy, routes }

/-- A configuration that the service can work with. -/
structure Ready (settings : StartSettings) (app : App) : Prop where
  level : settings.logLevel ∈ levelNames
  policy : app.policy.Valid lower
  routes : app.routes.Valid
  named : settings.llmProvider ≠ .fake → ∀ e ∈ app.routes.routes, e.2.unnamed = false

theorem configureLogging_ok {level : Str} : configureLogging level = .ok () ↔ level ∈ levelNames := by
  unfold configureLogging
  by_cases known : level ∈ levelNames
  · simp [known]
  · simp [known]

theorem createApp_ok {env : Env} {files : Str → File} {settings : StartSettings} {app : App} :
    createApp numbers lower env files settings = .ok app ↔
      settings.logLevel ∈ levelNames ∧
      loadPolicy numbers lower settings.policyFile (files settings.policyFile) = .ok app.policy ∧
      loadRoutes numbers env settings.routesFile (files settings.routesFile) = .ok app.routes ∧
      requireModels settings app.routes = .ok () := by
  unfold createApp
  simp only [Fallible.bind_eq_ok, Fallible.mapError_eq_ok]
  constructor
  · rintro ⟨⟨⟩, configured, policy, hasPolicy, routes, hasRoutes, ⟨⟩, named, built⟩
    obtain rfl := Except.ok.inj built
    exact ⟨configureLogging_ok.mp configured, hasPolicy, hasRoutes, named⟩
  · rintro ⟨known, hasPolicy, hasRoutes, named⟩
    exact ⟨(), configureLogging_ok.mpr known, app.policy, hasPolicy, app.routes, hasRoutes, (), named, rfl⟩

theorem requireModels_ok {settings : StartSettings} {r : Routes} : requireModels settings r = .ok () ↔
    (settings.llmProvider ≠ .fake → ∀ e ∈ r.routes, e.2.unnamed = false) := by
  unfold requireModels
  by_cases fake : settings.llmProvider = .fake
  · simp [fake]
  · have none : (r.routes.filter fun e => e.2.unnamed).map Prod.fst = [] ↔ ∀ e ∈ r.routes, e.2.unnamed = false := by
      simp [List.filter_eq_nil_iff]
    rw [if_neg fake, imp_iff_right fake, ← none]
    unfold Routes.requireModels
    split
    · rename_i empty
      exact iff_of_true rfl empty
    · rename_i missing
      exact iff_of_false (by simp) missing

theorem loadYaml_ok {path : Str} {file : File} {tree : Tree} (loaded : loadYaml path file = .ok tree) :
    file = .yaml tree := by
  cases file with
  | yaml other =>
      unfold loadYaml at loaded
      split at loaded
      next isYaml => cases isYaml
      next isYaml => cases isYaml
      next found isYaml =>
        obtain rfl := File.yaml.inj isYaml
        split at loaded
        · rw [Except.ok.inj loaded]
        · cases loaded
  | _ => cases loaded

theorem loaded_policy_valid {numbers : Numbers} (literal : Literal numbers) {path : Str} {file : File}
    {p : PolicyFile.Policy} (loaded : loadPolicy numbers lower path file = .ok p) : p.Valid lower := by
  unfold loadPolicy at loaded
  split at loaded
  · cases loaded
  · rename_i tree _
    split at loaded
    · rename_i passed
      exact Except.ok.inj loaded ▸ policy_sound lower literal tree.distinct passed
    · cases loaded

theorem loaded_routes_valid {numbers : Numbers} (literal : Literal numbers) {env : Env} {path : Str} {file : File}
    {r : Routes} (loaded : loadRoutes numbers env path file = .ok r) : r.Valid := by
  obtain ⟨tree, isTree, -⟩ := Fallible.bind_eq_ok.mp loaded
  obtain rfl := loadYaml_ok isTree
  exact (routes_exact literal).sound (distinct_expandEnv env tree.distinct) (loadRoutes_ok numbers loaded)

theorem createApp_ready {numbers : Numbers} (literal : Literal numbers) {env : Env} {files : Str → File}
    {settings : StartSettings} {app : App} (started : createApp numbers lower env files settings = .ok app) :
    Ready lower settings app := by
  obtain ⟨level, policy, routes, named⟩ := (createApp_ok numbers lower).mp started
  exact ⟨level, loaded_policy_valid lower literal policy, loaded_routes_valid literal routes, requireModels_ok.mp named⟩

theorem policy_file {numbers : Numbers} (literal : Literal numbers) {p : PolicyFile.Policy} (formed : p.Valid lower)
    (path : Str) : ∃ tree, loadPolicy numbers lower path (.yaml tree) = .ok p := by
  obtain ⟨entries, distinct, passed⟩ := policy_loads lower literal formed
  refine ⟨⟨.map entries, distinct⟩, ?_⟩
  simp only [loadPolicy, loadYaml, passed]

theorem routes_file {numbers : Numbers} (literal : Literal numbers) {r : Routes} (formed : r.Valid)
    (plain : ∀ s ∈ r.strings, ¬ HasReference s) (env : Env) (path : Str) :
    ∃ tree, loadRoutes numbers env path (.yaml tree) = .ok r := by
  have exact' := routes_exact literal
  have passed := exact'.loads formed []
  have bare : ¬ r.dump.Any HasReference HasReference := by
    rw [routes_shows numbers (exact'.distinct formed) passed]
    rintro ⟨s, member, has⟩
    exact plain s member has
  refine ⟨⟨r.dump, exact'.distinct formed⟩, ?_⟩
  have expanded := expandEnv_plain env bare
  unfold loadRoutes
  refine Fallible.bind_eq_ok.mpr ⟨_, rfl, ?_⟩
  simp only [expanded, passed]
  rfl

theorem ready_starts {numbers : Numbers} (literal : Literal numbers) {settings : StartSettings}
    (apart : settings.policyFile ≠ settings.routesFile) {app : App} (plain : ∀ s ∈ app.routes.strings, ¬ HasReference s)
    (ready : Ready lower settings app) : ∃ env files, createApp numbers lower env files settings = .ok app := by
  obtain ⟨policyTree, policyLoads⟩ := policy_file lower literal ready.policy settings.policyFile
  obtain ⟨routesTree, routesLoads⟩ := routes_file literal ready.routes plain (fun _ => none) settings.routesFile
  refine ⟨fun _ => none, fun path => .yaml (if path = settings.policyFile then policyTree else routesTree), ?_⟩
  refine (createApp_ok numbers lower).mpr ⟨ready.level, ?_, ?_, requireModels_ok.mpr ready.named⟩
  · rw [if_pos rfl]
    exact policyLoads
  · rw [if_neg apart.symm]
    exact routesLoads

/-- The service can start with a configuration just if it is ready. -/
theorem createApp_iff {numbers : Numbers} (literal : Literal numbers) {settings : StartSettings}
    (apart : settings.policyFile ≠ settings.routesFile) {app : App} (plain : ∀ s ∈ app.routes.strings, ¬ HasReference s) :
    (∃ env files, createApp numbers lower env files settings = .ok app) ↔ Ready lower settings app := by
  constructor
  · rintro ⟨env, files, started⟩
    exact createApp_ready lower literal started
  · exact ready_starts lower literal apart plain

theorem plainNumbers_literal : Literal plainNumbers := ⟨fun _ => rfl, fun _ => rfl, fun _ => rfl⟩

def smallPolicy : PolicyFile.Policy where
  linkAllowlist := ["nipoto.com".toList]
  companyName := "nipoto".toList
  persona := "short".toList
  denyTopics := []
  contact := { phone := "021".toList, hours := "9-17".toList }
  limits :=
    { turnsPerConversation := 6, dailyBudgetUsd := .finite 20, requestsPerMinutePerActor := 20, requestsPerMinutePerIp := 60 }
  language := defaultLanguage

def smallRoute : Route where
  provider := "main".toList
  model := some "m".toList
  maxTokens := 600
  temperature := .finite 0
  timeoutS := .finite 30

def smallRoutes : Routes where
  providers := [("main".toList, { baseUrl := none, apiKey := none })]
  routes := routeNames.map fun name => (name, smallRoute)
  embedding := { model := "e".toList, device := "cpu".toList, dim := 1024 }
  reranker := { model := "r".toList, enabled := false }
  thresholds := { tLow := .finite (7 / 20), tHigh := .finite (11 / 20) }
  pricing := []

def realProvider : StartSettings where
  logLevel := "INFO".toList
  llmProvider := .openaiCompat
  policyFile := "config/policy.yaml".toList
  routesFile := "config/routes.yaml".toList

theorem smallRoutes_plain : ∀ s ∈ smallRoutes.strings, ¬ HasReference s := by
  have plain : smallRoutes.strings.all (fun s => '$' ∉ s) = true := by decide +kernel
  exact fun s member => no_reference (by simpa using List.all_eq_true.mp plain s member)

theorem smallRoute_valid : smallRoute.Valid :=
  ⟨by decide, ⟨by decide +kernel, by decide +kernel⟩, by decide +kernel⟩

theorem small_ready : Ready asciiLower realProvider ⟨smallPolicy, smallRoutes⟩ where
  level := by decide
  policy := ⟨⟨by decide, by decide +kernel, by decide, by decide, by decide +kernel⟩,
    ["Nipoto.com".toList], by simp [Bare], by decide⟩
  routes :=
    { providers := by decide
      names := by decide
      priced := by decide
      routes := by
        intro e member
        obtain ⟨name, -, rfl⟩ := List.mem_map.mp member
        exact smallRoute_valid
      prices := by simp [smallRoutes]
      dim := by decide
      ordered := by decide +kernel
      required := by decide
      known := by
        intro e member
        obtain ⟨name, -, rfl⟩ := List.mem_map.mp member
        exact List.mem_cons_self }
  named := by
    intro _ e member
    obtain ⟨name, -, rfl⟩ := List.mem_map.mp member
    rfl

theorem createApp_iff_small :
    ∃ env files, createApp plainNumbers asciiLower env files realProvider = .ok ⟨smallPolicy, smallRoutes⟩ :=
  (createApp_iff asciiLower plainNumbers_literal (by decide) smallRoutes_plain).mpr small_ready

/-- What a pipeline finds under the name of its route. -/
structure Callable (settings : StartSettings) (r : Routes) (route : Route) : Prop where
  valid : route.Valid
  provider : ∃ p, r.providers.lookup route.provider = some p
  model : settings.llmProvider ≠ .fake → ∃ model, route.model = some model ∧ model ≠ []

theorem lookup_some_of_mem {α : Type} {entries : List (Str × α)} {name : Str} (there : name ∈ entries.map Prod.fst) :
    ∃ value, entries.lookup name = some value := by
  rw [← Option.isSome_iff_exists]
  obtain ⟨e, member, rfl⟩ := List.mem_map.mp there
  exact List.lookup_isSome_iff.mpr ⟨e, member, by simp⟩

theorem ready_callable {settings : StartSettings} {app : App} (ready : Ready lower settings app) {name : Str} {route : Route}
    (found : app.routes.route name = .ok route) : Callable settings app.routes route := by
  have entry : app.routes.routes.lookup name = some route := by
    unfold Routes.route at found
    split at found
    · rename_i here
      exact Except.ok.inj found ▸ here
    · cases found
  have member := Dict.mem_of_lookup entry
  refine ⟨ready.routes.routes _ member, lookup_some_of_mem (ready.routes.known _ member), fun real => ?_⟩
  have named : (route.model.getD [] = []) = False := by
    simpa [Route.unnamed] using ready.named real _ member
  cases model : route.model with
  | none => simp [model] at named
  | some text => exact ⟨text, rfl, by simpa [model] using named⟩

/-- The routes of the pipelines are there, and whatever route is found can be called. -/
theorem started_routes {numbers : Numbers} (literal : Literal numbers) {env : Env} {files : Str → File}
    {settings : StartSettings} {app : App} (started : createApp numbers lower env files settings = .ok app) :
    (∀ name ∈ routeNames, ∃ route, app.routes.route name = .ok route) ∧
      ∀ name route, app.routes.route name = .ok route → Callable settings app.routes route := by
  have ready := createApp_ready lower literal started
  refine ⟨fun name required => ?_, fun name route found => ready_callable lower ready found⟩
  obtain ⟨route, entry⟩ := lookup_some_of_mem (ready.routes.required name required)
  exact ⟨route, by rw [Routes.route, entry]⟩

theorem started_routes_small :
    ∃ app : App, (∀ name ∈ routeNames, ∃ route, app.routes.route name = .ok route) ∧
      ∀ name route, app.routes.route name = .ok route → Callable realProvider app.routes route := by
  obtain ⟨env, files, started⟩ := ready_starts asciiLower plainNumbers_literal (by decide) smallRoutes_plain small_ready
  exact ⟨_, started_routes asciiLower plainNumbers_literal started⟩

end Nipoto.Core
