import Nipoto.Core.Exact
import Nipoto.Core.Policy
import Nipoto.Core.Routes

/-! # The policy

config/policy.yaml as app/core/policy.py loads it. Nothing is put in from the
environment here. A policy holds the hosts in lower case, so that its documents are
those of the policies that it is when its hosts are as they were written.
-/

namespace Nipoto.Core.PolicyFile

open Text

structure Contact where
  phone : Str
  hours : Str

structure Limits where
  turnsPerConversation : Int
  dailyBudgetUsd : Number
  requestsPerMinutePerActor : Int
  requestsPerMinutePerIp : Int

structure LanguagePolicy where
  expected : Str
  minPersianRatio : Number

structure Policy extends Core.Policy where
  companyName : Str
  persona : Str
  denyTopics : List Str
  contact : Contact
  limits : Limits
  language : LanguagePolicy

def contact : Check Contact :=
  Fields.empty
    |>.required "phone" text
    |>.required "hours" text
    |>.model fun ((_, phone), hours) => { phone, hours }

def defaultLanguage : LanguagePolicy where
  expected := "fa".toList
  minPersianRatio := .finite (1 / 2)

/-- A share. -/
def ratio (n : Number) : Bool := atLeastZero n && n.le (.finite 1)

/-- `list[str]`. -/
def texts : Check (List Str)
  | loc, .seq items => Checked.each (fun e => text (loc ++ [(toString e.2).toList]) e.1) items.zipIdx
  | loc, _ => .error [⟨loc, .notList⟩]

/-- `list[str]` and `_hosts_only`. -/
def hosts (lower : Str → Str) : Check (List Str) := fun loc value =>
  match texts loc value with
  | .error problems => .error problems
  | .ok found =>
      match hostsOnly lower found with
      | .ok allowlist => .ok allowlist
      | .error host => .error [⟨loc, .notBareHost host⟩]

section
variable (numbers : Numbers)

def limits : Check Limits :=
  Fields.empty
    |>.required "turns_per_conversation" (number numbers.int (0 < ·))
    |>.required "daily_budget_usd" (number numbers.float aboveZero)
    |>.optional "requests_per_minute_per_actor" 20 (number numbers.int (0 < ·))
    |>.optional "requests_per_minute_per_ip" 60 (number numbers.int (0 < ·))
    |>.model fun ((((_, turnsPerConversation), dailyBudgetUsd), requestsPerMinutePerActor), requestsPerMinutePerIp) =>
        { turnsPerConversation, dailyBudgetUsd, requestsPerMinutePerActor, requestsPerMinutePerIp }

def languagePolicy : Check LanguagePolicy :=
  Fields.empty
    |>.optional "expected" "fa".toList text
    |>.optional "min_persian_ratio" (.finite (1 / 2)) (number numbers.float ratio)
    |>.model fun ((_, expected), minPersianRatio) => { expected, minPersianRatio }

/-- `Policy.model_validate`. -/
def policy (lower : Str → Str) : Check Policy :=
  Fields.empty
    |>.required "company_name" text
    |>.required "persona" text
    |>.required "deny_topics" texts
    |>.required "link_allowlist" (hosts lower)
    |>.required "contact" contact
    |>.required "limits" (limits numbers)
    |>.optional "language" defaultLanguage (languagePolicy numbers)
    |>.model fun (((((((_, companyName), persona), denyTopics), linkAllowlist), contact), limits), language) =>
        { companyName, persona, denyTopics, linkAllowlist, contact, limits, language }

end

variable (numbers : Numbers) (lower : Str → Str)

inductive PolicyError where
  | config (error : ConfigError)
  /-- "{path} is invalid:" and what pydantic reports -/
  | invalid (path : Str) (problems : List Problem)

def loadPolicy (path : Str) (file : File) : Except PolicyError Policy :=
  match loadYaml path file with
  | .error e => .error (.config e)
  | .ok tree =>
      match policy numbers lower [] tree.value with
      | .ok p => .ok p
      | .error problems => .error (.invalid path problems)

/-- The numbers are in their ranges. -/
structure Policy.Bounded (p : Policy) : Prop where
  turns : 0 < p.limits.turnsPerConversation
  budget : aboveZero p.limits.dailyBudgetUsd = true
  perActor : 0 < p.limits.requestsPerMinutePerActor
  perIp : 0 < p.limits.requestsPerMinutePerIp
  share : ratio p.language.minPersianRatio = true

def Bare (host : Str) : Prop := '/' ∉ host ∧ ':' ∉ host

structure Policy.Valid (p : Policy) : Prop where
  bounded : p.Bounded
  hosts : ∃ written : List Str, (∀ host ∈ written, Bare host) ∧ p.linkAllowlist = written.map lower

/-- The policy that a document with these hosts becomes. -/
def Policy.lowered (p : Policy) : Policy := { p with linkAllowlist := p.linkAllowlist.map lower }

theorem forall₂_iff_map {α β γ : Type} {f : α → γ} {g : β → γ} {l : List α} {m : List β} :
    List.Forall₂ (fun a b => f a = g b) l m ↔ l.map f = m.map g := by
  rw [← List.forall₂_eq_eq_eq, List.forall₂_map_left_iff, List.forall₂_map_right_iff]

theorem texts_ok {loc : List Str} {value : Yaml} {found : List Str} :
    texts loc value = .ok found ↔ value = .seq (found.map .str) := by
  have one : ∀ (e : Yaml × Nat) s, text (loc ++ [(toString e.2).toList]) e.1 = .ok s ↔ e.1 = .str s := by
    intro e s
    cases e.1 <;> simp [text]
  cases value with
  | seq items =>
      rw [texts, Checked.each_ok, Yaml.seq.injEq]
      simp only [one]
      rw [forall₂_iff_map, List.zipIdx_map_fst]
  | _ => simp [texts]

theorem hostsOnly_iff {written allowlist : List Str} :
    hostsOnly lower written = .ok allowlist ↔ (∀ host ∈ written, Bare host) ∧ allowlist = written.map lower := by
  unfold hostsOnly
  split
  · rename_i host found
    have bad := List.find?_some found
    refine iff_of_false (by simp) fun both => ?_
    have bare := both.1 host (List.mem_of_find?_eq_some found)
    simp only [decide_eq_true_eq] at bad
    exact bad.elim bare.1 bare.2
  · rename_i none
    rw [List.find?_eq_none] at none
    have bare : ∀ host ∈ written, Bare host := fun host member => by simpa [Bare] using none host member
    rw [Except.ok.injEq, eq_comm]
    exact (and_iff_right bare).symm

/-- Whether the hosts are bare does not depend on their case. -/
theorem hosts_lowers (loc : List Str) (value : Yaml) : hosts lower loc value = List.map lower <$> hosts id loc value := by
  unfold hosts hostsOnly
  cases texts loc value with
  | error problems => rfl
  | ok found =>
      simp only [List.map_id]
      cases found.find? fun host => '/' ∈ host ∨ ':' ∈ host <;> rfl

theorem policy_lowers (loc : List Str) (value : Yaml) :
    policy numbers lower loc value = Policy.lowered lower <$> policy numbers id loc value := by
  have changes := Fields.required_changes
    (Fields.empty |>.required "company_name" text |>.required "persona" text |>.required "deny_topics" texts)
    "link_allowlist" (hosts_lowers lower)
  have all := ((changes.field "contact".toList contact fun loc => .error [⟨loc, .missing⟩]).field "limits".toList
    (limits numbers) fun loc => .error [⟨loc, .missing⟩]).field "language".toList (languagePolicy numbers)
    fun _ => .ok defaultLanguage
  unfold policy
  refine all.model ?_ loc value
  exact fun _ => rfl

theorem distinct_texts (found : List Str) : (Yaml.seq (found.map .str)).Distinct := by
  induction found with
  | nil => trivial
  | cons s rest ih => exact ⟨trivial, ih⟩

theorem texts_exact : texts.Exact (fun _ => True) fun found => .seq (found.map .str) where
  sound := fun _ _ _ _ _ => trivial
  loads := fun _ _ _ => texts_ok.mpr rfl
  distinct := fun found _ => distinct_texts found

theorem hosts_ok {loc : List Str} {value : Yaml} {found : List Str} :
    hosts id loc value = .ok found ↔ value = .seq (found.map .str) ∧ ∀ host ∈ found, Bare host := by
  rw [← @texts_ok loc]
  unfold hosts
  cases texts loc value with
  | error problems => simp
  | ok written =>
      have only : hostsOnly id written = .ok found ↔ written = found ∧ ∀ host ∈ found, Bare host := by
        rw [hostsOnly_iff, List.map_id]
        constructor
        · rintro ⟨bare, rfl⟩
          exact ⟨rfl, bare⟩
        · rintro ⟨rfl, bare⟩
          exact ⟨bare, rfl⟩
      rw [Except.ok.injEq, ← only]
      simp only
      split
      · rename_i passed
        rw [passed]
        simp
      · rename_i failed
        rw [failed]
        simp

theorem hosts_exact : (hosts id).Exact (fun found => ∀ host ∈ found, Bare host) fun found => .seq (found.map .str) where
  sound := fun _ _ _ _ passed => (hosts_ok.mp passed).2
  loads := fun _ bare _ => hosts_ok.mpr ⟨rfl, bare⟩
  distinct := fun found _ => distinct_texts found

def Contact.dump (c : Contact) : Yaml := .map [("phone".toList, .str c.phone), ("hours".toList, .str c.hours)]

def Limits.dump (l : Limits) : Yaml :=
  .map [("turns_per_conversation".toList, .int l.turnsPerConversation),
    ("daily_budget_usd".toList, .float l.dailyBudgetUsd),
    ("requests_per_minute_per_actor".toList, .int l.requestsPerMinutePerActor),
    ("requests_per_minute_per_ip".toList, .int l.requestsPerMinutePerIp)]

def LanguagePolicy.dump (l : LanguagePolicy) : Yaml :=
  .map [("expected".toList, .str l.expected), ("min_persian_ratio".toList, .float l.minPersianRatio)]

def Policy.dump (p : Policy) : Yaml :=
  .map [("company_name".toList, .str p.companyName), ("persona".toList, .str p.persona),
    ("deny_topics".toList, .seq (p.denyTopics.map .str)), ("link_allowlist".toList, .seq (p.linkAllowlist.map .str)),
    ("contact".toList, p.contact.dump), ("limits".toList, p.limits.dump), ("language".toList, p.language.dump)]

/-- A number that is written as one is read as it is. -/
structure Literal (numbers : Numbers) : Prop where
  int : ∀ n, numbers.int.read (.int n) = some n
  float : ∀ x, numbers.float.read (.float x) = some x
  bool : ∀ b, numbers.bool.read (.bool b) = some b

open Fields

theorem contact_exact : contact.Exact (fun _ => True) Contact.dump := by
  have first := required_exact empty_exact "phone" text_exact
  have last := required_exact first "hours" text_exact
  exact (model_exact last rfl (fun c : Contact => (((), c.phone), c.hours)) (fun _ => rfl) fun _ => rfl).iff
    fun _ => by simp

variable {numbers} (literal : Literal numbers)

include literal

theorem limits_exact : (limits numbers).Exact (fun l => 0 < l.turnsPerConversation ∧ aboveZero l.dailyBudgetUsd = true ∧
    0 < l.requestsPerMinutePerActor ∧ 0 < l.requestsPerMinutePerIp) Limits.dump := by
  have first := required_exact empty_exact "turns_per_conversation" (number_exact literal.int (0 < ·))
  have second := required_exact first "daily_budget_usd" (number_exact literal.float aboveZero)
  have third := optional_exact second "requests_per_minute_per_actor" 20 (number_exact literal.int (0 < ·))
    (by decide)
  have last := optional_exact third "requests_per_minute_per_ip" 60 (number_exact literal.int (0 < ·))
    (by decide)
  exact (model_exact last rfl (fun l : Limits =>
    (((((), l.turnsPerConversation), l.dailyBudgetUsd), l.requestsPerMinutePerActor), l.requestsPerMinutePerIp))
    (fun _ => rfl) fun _ => rfl).iff fun _ => by simp [and_assoc]

theorem languagePolicy_exact :
    (languagePolicy numbers).Exact (fun l => ratio l.minPersianRatio = true) LanguagePolicy.dump := by
  have first := optional_exact empty_exact "expected" "fa".toList text_exact trivial
  have last := optional_exact first "min_persian_ratio" (.finite (1 / 2)) (number_exact literal.float ratio)
    (by decide +kernel)
  exact (model_exact last rfl (fun l : LanguagePolicy => (((), l.expected), l.minPersianRatio)) (fun _ => rfl)
    fun _ => rfl).iff fun _ => by simp

theorem policy_exact : (policy numbers id).Exact (fun p => p.Bounded ∧ ∀ host ∈ p.linkAllowlist, Bare host) Policy.dump := by
  have first := required_exact empty_exact "company_name" text_exact
  have second := required_exact first "persona" text_exact
  have third := required_exact second "deny_topics" texts_exact
  have fourth := required_exact third "link_allowlist" hosts_exact
  have fifth := required_exact fourth "contact" contact_exact
  have sixth := required_exact fifth "limits" (limits_exact literal)
  have last := optional_exact sixth "language" defaultLanguage (languagePolicy_exact literal)
    (by decide +kernel)
  refine (model_exact last rfl (fun p : Policy =>
    ((((((((), p.companyName), p.persona), p.denyTopics), p.linkAllowlist), p.contact), p.limits), p.language))
    (fun _ => rfl) fun _ => rfl).iff fun p => ?_
  simp only [true_and, and_true]
  constructor
  · rintro ⟨⟨bare, turns, budget, perActor, perIp⟩, share⟩
    exact ⟨⟨turns, budget, perActor, perIp, share⟩, bare⟩
  · rintro ⟨⟨turns, budget, perActor, perIp, share⟩, bare⟩
    exact ⟨⟨bare, turns, budget, perActor, perIp⟩, share⟩

theorem policy_sound {loc : List Str} {value : Yaml} {p : Policy} (distinct : value.Distinct)
    (passed : policy numbers lower loc value = .ok p) : p.Valid lower := by
  rw [policy_lowers] at passed
  obtain ⟨written, read, rfl⟩ := Checked.map_ok.mp passed
  obtain ⟨⟨turns, budget, perActor, perIp, share⟩, bare⟩ := (policy_exact literal).sound distinct read
  exact ⟨⟨turns, budget, perActor, perIp, share⟩, written.linkAllowlist, bare, rfl⟩

/-- A valid policy has a document. -/
theorem policy_loads {p : Policy} (formed : p.Valid lower) :
    ∃ entries, (Yaml.map entries).Distinct ∧ ∀ loc, policy numbers lower loc (.map entries) = .ok p := by
  obtain ⟨⟨turns, budget, perActor, perIp, share⟩, written, bare, lowered⟩ := formed
  have valid : ({ p with linkAllowlist := written } : Policy).Bounded ∧ ∀ host ∈ written, Bare host :=
    ⟨⟨turns, budget, perActor, perIp, share⟩, bare⟩
  refine ⟨_, (policy_exact literal).distinct valid, fun loc => ?_⟩
  have read := (policy_exact literal).loads valid loc
  rw [policy_lowers]
  refine (congrArg (Policy.lowered lower <$> ·) read).trans ?_
  exact congrArg (fun hosts => Except.ok { p with linkAllowlist := hosts }) lowered.symm

end Nipoto.Core.PolicyFile
