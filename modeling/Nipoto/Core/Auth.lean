import Nipoto.Connectors.Http
import Nipoto.Core.Errors
import Nipoto.Text.Str

/-! # Who makes a request

app/core/auth.py and app/core/actor.py. The token library, the key server and the
file system are outside: a `Library` says what they answer. An endpoint that is
guarded by roles runs for nobody but a bearer of a token with such a role.
-/

namespace Nipoto.Auth

open Text Requests Connectors

structure Settings where
  jwksUrl : Option String
  jwtPublicKeyFile : Option String
  jwtAudience : String

/-- How `jwt.decode` fails, by the exceptions that the service tells apart. -/
inductive DecodeError where
  | expired
  | audience
  /-- Any other `InvalidTokenError`. -/
  | invalid
  | other (exc : String)
  deriving DecidableEq, Repr

structure Library (Key : Type) where
  /-- The key for a token from a key server, `none` if the client raises. -/
  keyFromJwks : (url token : String) → Option Key
  isFile : String → Bool
  /-- The key in a file, `none` if reading raises. -/
  readKey : String → Option Key
  /-- `jwt.decode` for RS256 with `exp`, `sub` and `aud` required. -/
  decode : (token : String) → Key → (audience : String) → Except DecodeError Body

def unauthenticated : ErrorClass := { statusCode := 401, code := "unauthenticated", title := "Unauthenticated" }

def forbidden : ErrorClass := { statusCode := 403, code := "forbidden", title := "Forbidden" }

def roles : List Role := [.staff, .user, .guest, .service, .admin]

/-- `Actor` with the fields that are only kept from the token. -/
structure VerifiedActor extends Actor where
  tokenId : Option Json
  expiresAt : Option Json

/-- `_bearer_token`. Only ASCII letters become the letters of "bearer" in lower case. -/
def bearerToken (request : Inbound) : Except AppError String :=
  match filled (request.headers.lookup "authorization") with
  | none => .error (unauthenticated.error (some "Authorization header is missing.") (some "unauthenticated"))
  | some header =>
      let scheme := header.toList.takeWhile (· != ' ')
      let token := strip (header.toList.drop (scheme.length + 1))
      if scheme.map Char.toLower ≠ "bearer".toList ∨ token = [] then
        .error (unauthenticated.error (some "Expected 'Authorization: Bearer <jwt>'.") (some "unauthenticated"))
      else .ok (.ofList token)

variable {Key : Type}

inductive KeyError where
  /-- `AuthConfigError`. -/
  | config (text : String)
  | unresolved

/-- `_signing_key`. -/
def signingKey (lib : Library Key) (token : String) (settings : Settings) : Except KeyError Key :=
  match filled settings.jwksUrl with
  | some url =>
      match lib.keyFromJwks url token with
      | some key => .ok key
      | none => .error .unresolved
  | none =>
      match filled settings.jwtPublicKeyFile with
      | some path =>
          if lib.isFile path then
            match lib.readKey path with
            | some key => .ok key
            | none => .error .unresolved
          else .error (.config ("JWT_PUBLIC_KEY_FILE not found: " ++ path))
      | none => .error (.config "Set either JWKS_URL or JWT_PUBLIC_KEY_FILE.")

def invalidToken (detail : String) (code : String := "invalid_token") : Raised :=
  .app (unauthenticated.error (some detail) (some code))

def decodeToken (lib : Library Key) (token : String) (settings : Settings) : Except Raised Body :=
  match signingKey lib token settings with
  | .error (.config text) => .error (.unhandled text)
  | .error .unresolved => .error (invalidToken "Token key could not be resolved.")
  | .ok key =>
      match lib.decode token key settings.jwtAudience with
      | .ok claims => .ok claims
      | .error .expired => .error (invalidToken "Token has expired." "token_expired")
      | .error .audience => .error (invalidToken "Token audience is not this service.")
      | .error .invalid => .error (invalidToken "Token is invalid.")
      | .error (.other exc) => .error (.unhandled exc)

/-- The role of `ROLES` that a claim names. -/
def roleOf : Json → Option Role
  | .str name => roles.find? fun role => roleName role = name
  | _ => none

/-- `claims.get(key)`. -/
def claim (claims : Body) (key : String) : Option Json := (claims.lookup key).filter fun | .null => false | _ => true

def actorFromClaims (claims : Body) : Except Raised VerifiedActor :=
  match (claims.lookup "role").bind roleOf with
  | none => .error (invalidToken "Token carries no known role.")
  | some role =>
      match claims.lookup "sub" with
      | some (.str sub) =>
          if sub = "" then .error (invalidToken "Token carries no subject.")
          else .ok { userId := sub, role, tokenId := claim claims "jti", expiresAt := claim claims "exp" }
      | _ => .error (invalidToken "Token carries no subject.")

/-- `current_actor`. -/
def currentActor (lib : Library Key) (settings : Settings) (request : Inbound) : Except Raised VerifiedActor := do
  let token ← (bearerToken request).mapError Raised.app
  actorFromClaims (← decodeToken lib token settings)

/-- `require_roles`, `none` for its `ValueError`. -/
def requireRoles (names : List String) : Option (VerifiedActor → Except Raised VerifiedActor) :=
  if names.all (· ∈ roles.map roleName) then
    some fun actor =>
      if roleName actor.role ∈ names then .ok actor
      else .error (.app (forbidden.error (some ("Role '" ++ roleName actor.role ++ "' may not use this endpoint."))))
  else none

/-- An endpoint that depends on `require_roles`. -/
def guarded (lib : Library Key) (settings : Settings) (guard : VerifiedActor → Except Raised VerifiedActor)
    (endpoint : VerifiedActor → Except Raised Outbound) (request : Inbound) (_requestId : String) :
    Except Raised Outbound := do
  endpoint (← guard (← currentActor lib settings request))

/-- The request presents the token in its header. -/
def Bears (request : Inbound) (token : String) : Prop :=
  ∃ header scheme rest, request.headers.lookup "authorization" = some header ∧
    header.toList = scheme ++ ' ' :: rest ∧ ' ' ∉ scheme ∧ scheme.map Char.toLower = "bearer".toList ∧
    token.toList = strip rest ∧ token ≠ ""

/-- The key that the settings name for a token: from the key server if there is one. -/
def KeyFor (lib : Library Key) (settings : Settings) (token : String) (key : Key) : Prop :=
  (∃ url, filled settings.jwksUrl = some url ∧ lib.keyFromJwks url token = some key) ∨
    (filled settings.jwksUrl = none ∧ ∃ path, filled settings.jwtPublicKeyFile = some path ∧
      lib.isFile path = true ∧ lib.readKey path = some key)

/-- The claims are the actor's. -/
structure Claimed (claims : Body) (actor : VerifiedActor) : Prop where
  sub : claims.lookup "sub" = some (.str actor.userId)
  named : actor.userId ≠ ""
  role : claims.lookup "role" = some (.str (roleName actor.role))
  tokenId : actor.tokenId = claim claims "jti"
  expiresAt : actor.expiresAt = claim claims "exp"

/-- The request presents a token for this service that verifies, and the actor is who
    the token says, in a role of the endpoint. -/
def Admits (lib : Library Key) (settings : Settings) (names : List String) (request : Inbound)
    (actor : VerifiedActor) : Prop :=
  ∃ token key claims, Bears request token ∧ KeyFor lib settings token key ∧
    lib.decode token key settings.jwtAudience = .ok claims ∧ Claimed claims actor ∧ roleName actor.role ∈ names

/-- An answer to somebody who is not admitted: 401, 403, or 500 if the service cannot tell. -/
def Refusal : Raised → Prop
  | .app error =>
      error.extra = [] ∧ ((error.statusCode = 401 ∧ error.code ∈ ["unauthenticated", "invalid_token", "token_expired"]) ∨
        (error.statusCode = 403 ∧ error.code = "forbidden"))
  | .unhandled _ => True
  | _ => False

theorem filled_some {text : Option String} {value : String} :
    filled text = some value ↔ text = some value ∧ value ≠ "" := by
  constructor
  · intro there
    unfold filled at there
    split at there
    · cases there
    · rename_i other
      refine ⟨there, ?_⟩
      rintro rfl
      exact other there
  · rintro ⟨rfl, nonempty⟩
    exact filled_of_ne nonempty

theorem takeWhile_scheme {scheme : Str} (solid : ' ' ∉ scheme) (rest : Str) :
    (scheme ++ ' ' :: rest).takeWhile (· != ' ') = scheme := by
  rw [List.takeWhile_append_of_pos]
  · simp
  · intro c member
    exact bne_iff_ne.mpr fun same => solid (same ▸ member)

theorem drop_scheme (scheme rest : Str) : (scheme ++ ' ' :: rest).drop (scheme.length + 1) = rest := by
  rw [List.drop_append, List.drop_of_length_le (Nat.le_succ _), Nat.add_sub_cancel_left, List.nil_append]
  rfl

/-- A text is its part before the first blank, and what follows the blank if there is one. -/
theorem at_first_blank (s : Str) :
    s.drop ((s.takeWhile (· != ' ')).length + 1) = [] ∨
      s = s.takeWhile (· != ' ') ++ ' ' :: s.drop ((s.takeWhile (· != ' ')).length + 1) := by
  induction s with
  | nil => exact .inl rfl
  | cons c s ih =>
      by_cases blank : c = ' '
      · subst blank
        exact .inr rfl
      · have goesOn : (c :: s).takeWhile (· != ' ') = c :: s.takeWhile (· != ' ') := by
          simp [blank]
        rw [goesOn, List.length_cons, List.drop_succ_cons]
        cases ih with
        | inl empty => exact .inl empty
        | inr split => exact .inr (congrArg (c :: ·) split)

theorem bearerToken_ok {request : Inbound} {token : String} : bearerToken request = .ok token ↔ Bears request token := by
  constructor
  · intro ok
    unfold bearerToken at ok
    split at ok
    · cases ok
    · rename_i header there
      simp only at ok
      split at ok
      · cases ok
      · rename_i fine
        obtain ⟨scheme, solid⟩ := not_or.mp fine
        obtain rfl := Except.ok.inj ok
        refine ⟨header, header.toList.takeWhile (· != ' '), _, (filled_some.mp there).1, ?_, ?_, not_not.mp scheme,
          String.toList_ofList, ?_⟩
        · cases at_first_blank header.toList with
          | inl empty =>
              rw [empty] at solid
              exact absurd rfl solid
          | inr split => exact split
        · intro member
          exact absurd (List.mem_takeWhile_imp member) (by simp)
        · intro empty
          exact solid (by simpa using congrArg String.toList empty)
  · rintro ⟨header, scheme, rest, found, split, solid, lower, same, nonempty⟩
    have headed : header ≠ "" := by
      rintro rfl
      cases scheme <;> cases split
    have kept : strip rest ≠ [] := by
      rw [← same]
      exact fun empty => nonempty (String.toList_eq_nil_iff.mp empty)
    rw [bearerToken, filled_some.mpr ⟨found, headed⟩]
    simp only [split, takeWhile_scheme solid, drop_scheme, lower, ne_eq, not_true_eq_false, kept, or_self, if_false]
    rw [← same, String.ofList_toList]

theorem signingKey_ok {lib : Library Key} {settings : Settings} {token : String} {key : Key} :
    signingKey lib token settings = .ok key ↔ KeyFor lib settings token key := by
  unfold signingKey KeyFor
  cases filled settings.jwksUrl with
  | some url =>
      cases found : lib.keyFromJwks url token <;> simp [found]
  | none =>
      cases filled settings.jwtPublicKeyFile with
      | none => simp
      | some path =>
          by_cases file : lib.isFile path = true
          · cases found : lib.readKey path <;> simp [file, found]
          · simp [file]

theorem decodeToken_ok {lib : Library Key} {settings : Settings} {token : String} {claims : Body} :
    decodeToken lib token settings = .ok claims ↔
      ∃ key, KeyFor lib settings token key ∧ lib.decode token key settings.jwtAudience = .ok claims := by
  simp only [← signingKey_ok]
  unfold decodeToken
  cases signingKey lib token settings with
  | error e => cases e <;> simp
  | ok key =>
      simp only [Except.ok.injEq, exists_eq_left']
      cases lib.decode token key settings.jwtAudience with
      | ok found => simp
      | error e => cases e <;> simp

theorem roleName_injective : Function.Injective roleName := by
  intro a b same
  cases a <;> cases b <;> first | rfl | exact absurd same (by decide)

theorem roleOf_eq {value : Json} {role : Role} : roleOf value = some role ↔ value = .str (roleName role) := by
  unfold roleOf
  split
  · rename_i name
    rw [List.find?_eq_some_iff_getElem]
    constructor
    · rintro ⟨named, -⟩
      rw [decide_eq_true_eq.mp named]
    · intro same
      obtain rfl := Json.str.inj same
      cases role <;> exact ⟨by simp, by decide⟩
  · rename_i other
    constructor
    · intro found
      cases found
    · rintro rfl
      exact absurd rfl (other _)

theorem actorFromClaims_ok {claims : Body} {actor : VerifiedActor} :
    actorFromClaims claims = .ok actor ↔ Claimed claims actor := by
  have role : ∀ r, (claims.lookup "role").bind roleOf = some r ↔ claims.lookup "role" = some (.str (roleName r)) := by
    intro r
    simp only [Option.bind_eq_some_iff, roleOf_eq, exists_eq_right]
  constructor
  · intro ok
    unfold actorFromClaims at ok
    split at ok
    · cases ok
    · rename_i r named
      split at ok
      · rename_i sub found
        split at ok
        · cases ok
        · rename_i nonempty
          obtain rfl := Except.ok.inj ok
          exact ⟨found, nonempty, (role r).mp named, rfl, rfl⟩
      · cases ok
  · rintro ⟨sub, named, isRole, tokenId, expiresAt⟩
    unfold actorFromClaims
    simp only [(role actor.role).mpr isRole, sub, if_neg named, ← tokenId, ← expiresAt]

theorem currentActor_ok {lib : Library Key} {settings : Settings} {request : Inbound} {actor : VerifiedActor} :
    currentActor lib settings request = .ok actor ↔
      ∃ token key claims, Bears request token ∧ KeyFor lib settings token key ∧
        lib.decode token key settings.jwtAudience = .ok claims ∧ Claimed claims actor := by
  simp only [currentActor, ← bearerToken_ok, ← actorFromClaims_ok]
  cases bearerToken request with
  | error e => simp [Except.mapError, bind, Except.bind]
  | ok token =>
      have decoded := @decodeToken_ok Key lib settings token
      simp only [Except.mapError, bind, Except.bind, Except.ok.injEq, exists_and_left, exists_eq_left']
      cases result : decodeToken lib token settings with
      | error e =>
          simp only [reduceCtorEq, false_iff]
          rintro ⟨key, isKey, claims, found, -⟩
          exact absurd (result.symm.trans (decoded.mpr ⟨key, isKey, found⟩)) (by simp)
      | ok claims =>
          constructor
          · intro ok
            obtain ⟨key, isKey, found⟩ := decoded.mp result
            exact ⟨key, isKey, claims, found, ok⟩
          · rintro ⟨key, isKey, others, found, ok⟩
            obtain rfl := Except.ok.inj (result.symm.trans (decoded.mpr ⟨key, isKey, found⟩))
            exact ok

theorem bearerToken_refusal {request : Inbound} {error : AppError} (failed : bearerToken request = .error error) :
    Refusal (.app error) := by
  unfold bearerToken at failed
  split at failed
  · obtain rfl := Except.error.inj failed
    exact ⟨rfl, .inl ⟨rfl, by decide⟩⟩
  · simp only at failed
    split at failed
    · obtain rfl := Except.error.inj failed
      exact ⟨rfl, .inl ⟨rfl, by decide⟩⟩
    · cases failed

theorem invalidToken_refusal (detail : String) {code : String}
    (known : code ∈ ["unauthenticated", "invalid_token", "token_expired"]) : Refusal (invalidToken detail code) :=
  ⟨rfl, .inl ⟨rfl, known⟩⟩

theorem decodeToken_refusal {lib : Library Key} {settings : Settings} {token : String} {raised : Raised}
    (failed : decodeToken lib token settings = .error raised) : Refusal raised := by
  unfold decodeToken at failed
  repeat' split at failed
  all_goals cases failed
  all_goals first | exact trivial | exact invalidToken_refusal _ (by decide)

theorem actorFromClaims_refusal {claims : Body} {raised : Raised}
    (failed : actorFromClaims claims = .error raised) : Refusal raised := by
  unfold actorFromClaims at failed
  repeat' split at failed
  all_goals cases failed
  all_goals exact invalidToken_refusal _ (by decide)

theorem currentActor_refusal {lib : Library Key} {settings : Settings} {request : Inbound} {raised : Raised}
    (failed : currentActor lib settings request = .error raised) : Refusal raised := by
  unfold currentActor at failed
  cases bears : bearerToken request with
  | error e =>
      rw [bears] at failed
      obtain rfl := Except.error.inj failed
      exact bearerToken_refusal bears
  | ok token =>
      rw [bears] at failed
      cases decoded : decodeToken lib token settings with
      | error e =>
          simp only [Except.mapError, bind, Except.bind, decoded] at failed
          obtain rfl := Except.error.inj failed
          exact decodeToken_refusal decoded
      | ok claims =>
          simp only [Except.mapError, bind, Except.bind, decoded] at failed
          exact actorFromClaims_refusal failed

theorem requireRoles_guard {names : List String} {guard : VerifiedActor → Except Raised VerifiedActor}
    (made : requireRoles names = some guard) (actor : VerifiedActor) :
    (roleName actor.role ∈ names ∧ guard actor = .ok actor) ∨
      (roleName actor.role ∉ names ∧ ∃ refusal, guard actor = .error refusal ∧ Refusal refusal) := by
  unfold requireRoles at made
  split at made
  · obtain rfl := Option.some.inj made
    by_cases inRole : roleName actor.role ∈ names
    · exact .inl ⟨inRole, by simp [inRole]⟩
    · exact .inr ⟨inRole, _, if_neg inRole, rfl, .inr ⟨rfl, rfl⟩⟩
  · cases made

theorem refusal_extra {raised : Raised} (refusal : Refusal raised) : raised.extra = [] := by
  cases raised with
  | app error => exact refusal.1
  | unhandled exc => rfl
  | _ => exact absurd refusal id

theorem refusal_leavesStandard {raised : Raised} (refusal : Refusal raised) (path requestId : String) :
    LeavesStandard path requestId raised := by
  intro e _ value found
  rw [refusal_extra refusal] at found
  cases found

/-- A refusal has nothing in it that its problem could not be written with. -/
theorem refusal_answered {raised : Raised} (refusal : Refusal raised) : raised.answered = raised := by
  cases raised with
  | app error =>
      have finite : Json.finiteFields error.extra = true := by
        rw [refusal.1]
        rfl
      exact if_pos finite
  | _ => rfl

/-- The endpoint runs as the actor that the request is admitted as. A request that is
    not admitted is answered with one and the same refusal, whatever the endpoint does. -/
structure Guards (lib : Library Key) (settings : Settings) (names : List String)
    (guard : VerifiedActor → Except Raised VerifiedActor) (new : String) (request : Inbound) : Prop where
  admitted : ∀ actor, Admits lib settings names request actor → ∀ endpoint,
    serve new (guarded lib settings guard endpoint) request = serve new (fun _ _ => endpoint actor) request
  refused : (∀ actor, ¬ Admits lib settings names request actor) → ∃ refusal, Refusal refusal ∧
    (∀ endpoint,
      serve new (guarded lib settings guard endpoint) request = serve new (fun _ _ => .error refusal) request) ∧
    IsProblem request.path (requestIdOf new request) refusal (serve new (fun _ _ => .error refusal) request)

theorem serve_congr {new : String} {handler other : Inbound → String → Except Raised Outbound} {request : Inbound}
    (same : handler request (requestIdOf new request) = other request (requestIdOf new request)) :
    serve new handler request = serve new other request := by
  simp only [serve, same]

/-- The dependencies of an endpoint are resolved before it runs. -/
theorem guarded_eq (lib : Library Key) (settings : Settings) (guard : VerifiedActor → Except Raised VerifiedActor)
    (endpoint : VerifiedActor → Except Raised Outbound) (request : Inbound) (requestId : String) :
    guarded lib settings guard endpoint request requestId =
      ((currentActor lib settings request).bind guard).bind endpoint := by
  unfold guarded
  cases currentActor lib settings request <;> rfl

/-- A dependency that raises a refusal keeps the endpoint from running. -/
theorem guarded_refused {lib : Library Key} {settings : Settings}
    {guard : VerifiedActor → Except Raised VerifiedActor} {request : Inbound} {refusal : Raised}
    (isRefusal : Refusal refusal) (failed : (currentActor lib settings request).bind guard = .error refusal)
    {new : String} (named : new ≠ "") :
    (∀ endpoint,
      serve new (guarded lib settings guard endpoint) request = serve new (fun _ _ => .error refusal) request) ∧
    IsProblem request.path (requestIdOf new request) refusal (serve new (fun _ _ => .error refusal) request) := by
  constructor
  · intro endpoint
    refine serve_congr ?_
    rw [guarded_eq, failed]
    rfl
  · have problem := @serve_isProblem new named (fun _ _ => .error refusal) request refusal rfl
    rw [refusal_answered isRefusal] at problem
    exact problem.mpr (refusal_leavesStandard isRefusal _ _)

theorem roles_guard (lib : Library Key) (settings : Settings) {names : List String}
    {guard : VerifiedActor → Except Raised VerifiedActor} (made : requireRoles names = some guard) {new : String}
    (named : new ≠ "") (request : Inbound) : Guards lib settings names guard new request := by
  constructor
  · rintro actor ⟨token, key, claims, bears, isKey, decoded, claimed, inRole⟩ endpoint
    have isActor := currentActor_ok.mpr ⟨token, key, claims, bears, isKey, decoded, claimed⟩
    cases requireRoles_guard made actor with
    | inl passed =>
        refine serve_congr ?_
        simp only [guarded, isActor, passed.2, bind, Except.bind]
    | inr refused => exact absurd inRole refused.1
  · intro nobody
    cases isActor : currentActor lib settings request with
    | error raised =>
        have isRefusal := currentActor_refusal isActor
        have failed : (currentActor lib settings request).bind guard = .error raised := by
          rw [isActor]
          rfl
        exact ⟨raised, isRefusal, guarded_refused isRefusal failed named⟩
    | ok actor =>
        cases requireRoles_guard made actor with
        | inl passed =>
            obtain ⟨token, key, claims, bears, isKey, decoded, claimed⟩ := currentActor_ok.mp isActor
            exact absurd ⟨token, key, claims, bears, isKey, decoded, claimed, passed.1⟩ (nobody actor)
        | inr refused =>
            obtain ⟨-, refusal, raises, isRefusal⟩ := refused
            have failed : (currentActor lib settings request).bind guard = .error refusal := by
              rw [isActor]
              exact raises
            exact ⟨refusal, isRefusal, guarded_refused isRefusal failed named⟩

/-- What scripts/mint_token.py is called with; the token id is random. -/
structure Mint where
  role : Role
  sub : String
  ttlSeconds : Int
  audience : String
  issuedAt : Int
  tokenId : String

/-- The claims of `mint`. -/
def Mint.claims (mint : Mint) : Body :=
  [("sub", .str mint.sub), ("role", .str (roleName mint.role)), ("aud", .str mint.audience),
    ("iss", .str "nipoto-dev"), ("iat", .int mint.issuedAt), ("exp", .int (mint.issuedAt + mint.ttlSeconds)),
    ("jti", .str mint.tokenId)]

def Mint.actor (mint : Mint) : VerifiedActor where
  userId := mint.sub
  role := mint.role
  tokenId := some (.str mint.tokenId)
  expiresAt := some (.int (mint.issuedAt + mint.ttlSeconds))

/-- The claims are there that `decode` is told to require, and those that it checks
    wherever they are there. -/
structure Carries (claims : Body) (issuedAt expiresAt : Int) (audience : String) : Prop where
  sub : ∃ sub, claims.lookup "sub" = some (.str sub)
  tokenId : ∃ tokenId, claims.lookup "jti" = some (.str tokenId)
  issuedAt : claims.lookup "iat" = some (.int issuedAt)
  notBefore : claims.lookup "nbf" = none
  expiresAt : claims.lookup "exp" = some (.int expiresAt)
  audience : claims.lookup "aud" = some (.str audience)

/-- What PyJWT documents for a token whose signature over the claims the key verifies.
    It looks at the time of issue, then at the expiry and then at the audience; an empty
    audience claim counts as a missing one. -/
structure Verifies (lib : Library Key) (now : Int) (token : String) (key : Key) (claims : Body) : Prop where
  early : ∀ {issuedAt expiresAt own}, Carries claims issuedAt expiresAt own → now < issuedAt → ∀ audience,
    lib.decode token key audience = .error .invalid
  late : ∀ {issuedAt expiresAt own}, Carries claims issuedAt expiresAt own → issuedAt ≤ now → expiresAt ≤ now →
    ∀ audience, lib.decode token key audience = .error .expired
  unnamed : ∀ {issuedAt expiresAt}, Carries claims issuedAt expiresAt "" → issuedAt ≤ now → now < expiresAt →
    ∀ audience, lib.decode token key audience = .error .invalid
  elsewhere : ∀ {issuedAt expiresAt own}, Carries claims issuedAt expiresAt own → issuedAt ≤ now → now < expiresAt →
    own ≠ "" → ∀ audience, own ≠ audience → lib.decode token key audience = .error .audience
  accepted : ∀ {issuedAt expiresAt own}, Carries claims issuedAt expiresAt own → issuedAt ≤ now → now < expiresAt →
    own ≠ "" → lib.decode token key own = .ok claims

/-- A token of a mint, as it is presented and verified at `now`. -/
structure Presented (lib : Library Key) (settings : Settings) (mint : Mint) (now : Int) (request : Inbound)
    (token : String) (key : Key) : Prop where
  bears : Bears request token
  isKey : KeyFor lib settings token key
  verifies : Verifies lib now token key mint.claims

/-- The time and the audience are right. -/
def Mint.Valid (mint : Mint) (now : Int) (audience : String) : Prop :=
  mint.issuedAt ≤ now ∧ now < mint.issuedAt + mint.ttlSeconds ∧ mint.audience ≠ "" ∧ mint.audience = audience

/-- A mint puts in all that `decode` looks at. -/
theorem mint_carries (mint : Mint) :
    Carries mint.claims mint.issuedAt (mint.issuedAt + mint.ttlSeconds) mint.audience where
  sub := ⟨mint.sub, rfl⟩
  tokenId := ⟨mint.tokenId, rfl⟩
  issuedAt := rfl
  notBefore := rfl
  expiresAt := rfl
  audience := rfl

theorem Carries.unique {claims : Body} {issuedAt expiresAt issuedAt' expiresAt' : Int} {audience audience' : String}
    (carries : Carries claims issuedAt expiresAt audience) (also : Carries claims issuedAt' expiresAt' audience') :
    issuedAt = issuedAt' ∧ expiresAt = expiresAt' ∧ audience = audience' := by
  refine ⟨?_, ?_, ?_⟩
  · exact Json.int.inj (Option.some.inj (carries.issuedAt.symm.trans also.issuedAt))
  · exact Json.int.inj (Option.some.inj (carries.expiresAt.symm.trans also.expiresAt))
  · exact Json.str.inj (Option.some.inj (carries.audience.symm.trans also.audience))

theorem minted_decode {lib : Library Key} {mint : Mint} {now : Int} {token : String} {key : Key}
    (verifies : Verifies lib now token key mint.claims) {audience : String} {claims : Body} :
    lib.decode token key audience = .ok claims ↔ mint.Valid now audience ∧ claims = mint.claims := by
  have carries := mint_carries mint
  constructor
  · intro ok
    have started : mint.issuedAt ≤ now := by
      by_contra early
      rw [verifies.early carries (Int.not_le.mp early)] at ok
      cases ok
    have lasts : now < mint.issuedAt + mint.ttlSeconds := by
      by_contra late
      rw [verifies.late carries started (Int.not_lt.mp late)] at ok
      cases ok
    have addressed : mint.audience ≠ "" := by
      intro empty
      rw [verifies.unnamed (empty ▸ carries) started lasts] at ok
      cases ok
    have here : mint.audience = audience := by
      by_contra other
      rw [verifies.elsewhere carries started lasts addressed audience other] at ok
      cases ok
    rw [← here, verifies.accepted carries started lasts addressed] at ok
    exact ⟨⟨started, lasts, addressed, here⟩, (Except.ok.inj ok).symm⟩
  · rintro ⟨⟨started, lasts, addressed, rfl⟩, rfl⟩
    exact verifies.accepted carries started lasts addressed

theorem claimed_mint {mint : Mint} {actor : VerifiedActor} :
    Claimed mint.claims actor ↔ actor = mint.actor ∧ mint.sub ≠ "" := by
  constructor
  · rintro ⟨sub, named, role, tokenId, expiresAt⟩
    have sameSub : mint.sub = actor.userId := Json.str.inj (Option.some.inj sub)
    have sameRole : mint.role = actor.role := roleName_injective (Json.str.inj (Option.some.inj role))
    refine ⟨?_, sameSub ▸ named⟩
    obtain ⟨⟨userId, actorRole⟩, actorToken, actorExpiry⟩ := actor
    simp only at sameSub sameRole tokenId expiresAt
    subst sameSub sameRole tokenId expiresAt
    rfl
  · rintro ⟨rfl, named⟩
    exact ⟨rfl, named, rfl, rfl, rfl⟩

section

variable {lib : Library Key} {settings : Settings} {mint : Mint} {now : Int} {request : Inbound} {token : String}
  {key : Key}

/-- A minted token admits its own subject in its own role, within its time, for its
    audience, where the role is allowed; and nobody else. -/
theorem minted_admits_iff (presented : Presented lib settings mint now request token key) (names : List String)
    (actor : VerifiedActor) :
    Admits lib settings names request actor ↔
      actor = mint.actor ∧ mint.Valid now settings.jwtAudience ∧ mint.sub ≠ "" ∧ roleName mint.role ∈ names := by
  constructor
  · rintro ⟨other, otherKey, claims, bears, isKey, decoded, claimed, inRole⟩
    obtain rfl := Except.ok.inj ((bearerToken_ok.mpr presented.bears).symm.trans (bearerToken_ok.mpr bears))
    obtain rfl := Except.ok.inj ((signingKey_ok.mpr presented.isKey).symm.trans (signingKey_ok.mpr isKey))
    obtain ⟨valid, rfl⟩ := (minted_decode presented.verifies).mp decoded
    obtain ⟨rfl, named⟩ := claimed_mint.mp claimed
    exact ⟨rfl, valid, named, inRole⟩
  · rintro ⟨rfl, valid, named, inRole⟩
    have decoded := (minted_decode presented.verifies).mpr ⟨valid, rfl⟩
    exact ⟨token, key, mint.claims, presented.bears, presented.isKey, decoded, claimed_mint.mpr ⟨rfl, named⟩, inRole⟩

end

def devSettings : Settings where
  jwksUrl := none
  jwtPublicKeyFile := some ".keys/dev_public.pem"
  jwtAudience := "nipoto-ai"

def devMint : Mint where
  role := .staff
  sub := "u1"
  ttlSeconds := 600
  audience := "nipoto-ai"
  issuedAt := 1000
  tokenId := "0a"

/-- The library at a time, for one key file and one token. -/
def devLibrary (now : Int) : Library Unit where
  keyFromJwks := fun _ _ => none
  isFile := fun path => path = ".keys/dev_public.pem"
  readKey := fun _ => some ()
  decode := fun token _ audience =>
    if token ≠ "x.y.z" ∨ now < 1000 then .error .invalid
    else if 1600 ≤ now then .error .expired
    else if audience ≠ "nipoto-ai" then .error .audience
    else .ok devMint.claims

theorem devLibrary_verifies (now : Int) : Verifies (devLibrary now) now "x.y.z" () devMint.claims where
  early := by
    intro issuedAt expiresAt own carries early audience
    obtain ⟨rfl, -, -⟩ := (mint_carries devMint).unique carries
    exact if_pos (.inr early)
  late := by
    intro issuedAt expiresAt own carries started late audience
    obtain ⟨rfl, rfl, -⟩ := (mint_carries devMint).unique carries
    have open' : ¬ now < 1000 := Int.not_lt.mpr started
    have late : 1600 ≤ now := late
    simp [devLibrary, open', late]
  unnamed := by
    intro issuedAt expiresAt carries
    exact absurd ((mint_carries devMint).unique carries).2.2 (by decide)
  elsewhere := by
    intro issuedAt expiresAt own carries started lasts _ audience other
    obtain ⟨rfl, rfl, rfl⟩ := (mint_carries devMint).unique carries
    have open' : ¬ now < 1000 := Int.not_lt.mpr started
    have lasts : ¬ 1600 ≤ now := Int.not_le.mpr lasts
    have other : audience ≠ "nipoto-ai" := fun same => other same.symm
    simp [devLibrary, open', lasts, other]
  accepted := by
    intro issuedAt expiresAt own carries started lasts _
    obtain ⟨rfl, rfl, rfl⟩ := (mint_carries devMint).unique carries
    have open' : ¬ now < 1000 := Int.not_lt.mpr started
    have lasts : ¬ 1600 ≤ now := Int.not_le.mpr lasts
    have here : devMint.audience = "nipoto-ai" := rfl
    simp [devLibrary, open', lasts, here]

def devRequest : Inbound :=
  { method := "GET", path := "/v1/probe", headers := [("authorization", "Bearer x.y.z ")] }

theorem devRequest_presented (now : Int) :
    Presented (devLibrary now) devSettings devMint now devRequest "x.y.z" () where
  bears := ⟨"Bearer x.y.z ", "Bearer".toList, "x.y.z ".toList, rfl, rfl, by decide, rfl, by decide, by decide⟩
  isKey := .inr ⟨rfl, ".keys/dev_public.pem", rfl, rfl, rfl⟩
  verifies := devLibrary_verifies now

theorem minted_admits_dev :
    Admits (devLibrary 1599) devSettings ["staff", "admin"] devRequest devMint.actor ∧
      ¬ Admits (devLibrary 1600) devSettings ["staff", "admin"] devRequest devMint.actor := by
  constructor
  · refine (minted_admits_iff (devRequest_presented 1599) _ _).mpr 
      ⟨rfl, ⟨by decide, by decide, by decide, rfl⟩, by decide, by decide⟩
  · intro admits
    have valid := ((minted_admits_iff (devRequest_presented 1600) _ _).mp admits).2.1
    exact absurd valid.2.1 (by decide)

theorem roles_guard_dev :
    ∃ guard, requireRoles ["staff", "admin"] = some guard ∧
      Guards (devLibrary 1599) devSettings ["staff", "admin"] guard "req_0123456789ab" devRequest :=
  ⟨_, rfl, roles_guard _ _ rfl (by decide) _⟩

end Nipoto.Auth
