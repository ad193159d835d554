/-
Who a request is from: once for the API, once for the audit log.

`get_current_user` authenticates a request by its `X-API-Key` header or else by the JWT that
FastAPI's `OAuth2PasswordBearer` takes from the `Authorization` header. `AuthContextMiddleware`
decodes a JWT on its own, before the request is handled: from the same header or else from the
`?token=` parameter, without the database, and also when it has expired.
`AuditMiddleware` writes down what the second one found.

Decoding a JWT is the library's; it happens twice, and a token may expire in between.
-/
import Mathlib.Data.List.Basic

set_option autoImplicit false

namespace WalStream.Middleware

/-! ## Requests and tables -/

/-- What the two read of a request. A header or parameter may be missing. -/
structure Request where
  method : String
  path : String
  client_host : Option String
  authorization : Option String
  /-- `?token=` -/
  token : Option String
  x_api_key : Option String
deriving DecidableEq

inductive UserRole
  | admin
  | operator
  | viewer
deriving DecidableEq, Repr

structure User where
  id : Nat
  username : String
  email : String
  hashed_password : String
  is_active : Bool
  is_superuser : Bool
  role : UserRole
deriving DecidableEq

structure ApiKey where
  id : Nat
  key_hash : String
  service_name : String
  is_active : Bool
  expires_at : Option Int
deriving DecidableEq

/-- The two tables, and whether the driver returns datetimes with a time zone. -/
structure AuthDb where
  users : List User
  api_keys : List ApiKey
  aware : Bool

/-! ## JWTs

One text can decode differently at two times of a request, since a token may expire in between;
nothing else about it changes. -/

/-- The claims of a token, as far as they are read; a `sub` that is no string does not
decode. -/
structure Payload where
  sub : Option String
deriving DecidableEq

/-- What `jwt.decode` makes of a token. -/
inductive Decoded
  | valid (payload : Payload)
  /-- `ExpiredSignatureError`, and what decoding without the expiry check returns. -/
  | expired (payload : Option Payload)
  /-- Any other `JWTError`. -/
  | invalid
deriving DecidableEq

/-! ## Python texts -/

/-- The characters `str.strip` takes off. -/
def is_space (c : Char) : Bool :=
  (9 ≤ c.toNat && c.toNat ≤ 13) || (28 ≤ c.toNat && c.toNat ≤ 32) || c.toNat = 0x85
    || c.toNat = 0xa0 || c.toNat = 0x1680 || (0x2000 ≤ c.toNat && c.toNat ≤ 0x200a)
    || c.toNat = 0x2028 || c.toNat = 0x2029 || c.toNat = 0x202f || c.toNat = 0x205f
    || c.toNat = 0x3000

/-- `s.strip()`. -/
def strip (s : String) : String :=
  String.ofList ((s.toList.dropWhile is_space).reverse.dropWhile is_space).reverse

/-- `s.lower()`, for comparisons with ASCII words. -/
def lower (s : String) : List Char := s.toList.map Char.toLower

/-- The readings of one secret at the two times of a request, `early` in the middleware and
`late` in the dependency. -/
structure Jwt (early late : String → Decoded) : Prop where
  /-- All that time does to a token is to let it expire. -/
  expires : ∀ token, late token = early token ∨
    ∃ payload, early token = .valid payload ∧ late token = .expired (some payload)
  /-- Blanks around a token that decodes are ignored. -/
  blanks : ∀ token payload, late token = .valid payload → late (strip token) = .valid payload
  empty : early "" = .invalid

/-! ## `get_current_user`

The branches in the order of the code, with the refusal that each of them raises. -/

/-- Why a request is not authenticated. -/
inductive Refusal
  /-- An `HTTPException`. -/
  | http (status_code : Nat) (detail : String) (headers : List (String × String))
  /-- Another exception. -/
  | raised (text : String)
deriving DecidableEq

def credentials_exception : Refusal :=
  .http 401 "Could not validate credentials" [("WWW-Authenticate", "Bearer")]

def token_expired : Refusal :=
  .http 401 "Token has expired"
    [("WWW-Authenticate", "Bearer error=\"invalid_token\""), ("X-Token-Expired", "true")]

def account_disabled : Refusal := .http 403 "User account is disabled" []

/-- `OAuth2PasswordBearer(auto_error=False)`: what follows the first blank of a header whose
scheme is `bearer`; `trim` is what the installed version does to it. -/
def oauth2_scheme (trim : String → String) (authorization : Option String) : Option String :=
  let header := (authorization.getD "").toList
  let scheme := header.takeWhile fun c => c ≠ ' '
  if header.isEmpty || scheme.map Char.toLower ≠ "bearer".toList then none
  else some (trim (String.ofList ((header.dropWhile fun c => c ≠ ' ').drop 1)))

/-- `result.scalar_one_or_none()`. -/
def scalar_one_or_none {α : Type} : List α → Except Refusal (Option α)
  | [] => .ok none
  | [row] => .ok (some row)
  | _ => .error (.raised "MultipleResultsFound")

/-- `row.expires_at and row.expires_at < datetime.utcnow()`: `utcnow` has no time zone. -/
def key_expired (db : AuthDb) (now : Int) (row : ApiKey) : Except Refusal Bool :=
  match row.expires_at with
  | none => .ok false
  | some expires_at =>
      if db.aware then .error (.raised "TypeError") else .ok (decide (expires_at < now))

/-- The user an API key stands for. -/
def service_user (row : ApiKey) : User :=
  { id := row.id,
    username := "svc:" ++ row.service_name,
    email := row.service_name ++ "@internal",
    hashed_password := "",
    is_active := true,
    is_superuser := false,
    role := .operator }

/-- `_authenticate_api_key`. Touching `last_used_at` never fails the request. -/
def authenticate_api_key (db : AuthDb) (sha256 : String → String) (now : Int)
    (api_key : String) : Except Refusal (Option User) := do
  let rows := db.api_keys.filter fun row => row.key_hash = sha256 api_key && row.is_active
  match ← scalar_one_or_none rows with
  | none => return none
  | some row => if ← key_expired db now row then return none else return some (service_user row)

/-- The JWT part of `get_current_user`. -/
def authenticate_jwt (db : AuthDb) (jwt : String → Decoded) (token : String) :
    Except Refusal User := do
  match jwt token with
  | .expired _ => .error token_expired
  | .invalid => .error credentials_exception
  | .valid payload =>
      match payload.sub with
      | none => .error credentials_exception
      | some username =>
          match ← scalar_one_or_none (db.users.filter fun user => user.username = username) with
          | none => .error credentials_exception
          | some user => if user.is_active then .ok user else .error account_disabled

/-- `get_current_user`. -/
def get_current_user (db : AuthDb) (sha256 : String → String) (jwt : String → Decoded)
    (trim : String → String) (now : Int) (request : Request) : Except Refusal User := do
  -- the API key first, and if there is one nothing else
  if request.x_api_key.getD "" ≠ "" then
    match ← authenticate_api_key db sha256 now (request.x_api_key.getD "") with
    | some user => .ok user
    | none => .error credentials_exception
  else
    match oauth2_scheme trim request.authorization with
    | none => .error credentials_exception
    | some token =>
        if token = "" then .error credentials_exception else authenticate_jwt db jwt token

/-! ## `AuthContextMiddleware` -/

structure UserIdentity where
  username : String
  is_expired : Bool
deriving DecidableEq

/-- `_extract_token`. -/
def extract_token (request : Request) : Option String :=
  let header := (request.authorization.getD "").toList
  if "bearer ".toList.isPrefixOf (header.map Char.toLower) then
    some (strip (String.ofList (header.drop 7)))
  else request.token

/-- `_decode_identity`. -/
def decode_identity (jwt : String → Decoded) (token : String) : UserIdentity :=
  match jwt token with
  | .valid payload => { username := payload.sub.getD "", is_expired := false }
  | .expired (some payload) => { username := payload.sub.getD "", is_expired := true }
  | .expired none => { username := "", is_expired := true }
  | .invalid => { username := "", is_expired := false }

/-- `request.state.user_identity`. -/
def user_identity (jwt : String → Decoded) (request : Request) : Option UserIdentity :=
  match extract_token request with
  | none => none
  | some token => if token = "" then none else some (decode_identity jwt token)

/-- The headers `AuthContextMiddleware` adds to the response. -/
def token_headers (jwt : String → Decoded) (request : Request) : List (String × String) :=
  match user_identity jwt request with
  | some identity => if identity.is_expired then [("X-Token-Expired", "true")] else []
  | none => []

/-! ## `AuditMiddleware` -/

/-- `_MUTATING_METHODS`. -/
def MUTATING_METHODS : List String := ["POST", "PATCH", "PUT", "DELETE"]

/-- The parts of a path, less the prefix `api/v…`. -/
def path_parts (path : String) : List String :=
  let parts := ((path.toList.splitOn '/').filter fun p => !p.isEmpty).map String.ofList
  match parts with
  | "api" :: version :: rest => if version.toList.head? = some 'v' then rest else parts
  | _ => parts

/-- `_extract_resource`. -/
def extract_resource (path : String) : String × Option String :=
  match path_parts path with
  | [] => ("unknown", none)
  | part :: rest =>
      let resource_type := if part = "jobs" then "replay_job" else part
      (resource_type, if resource_type = "auth" then none else rest.head?)

/-- `_derive_action`. -/
def derive_action (method path resource_type : String) (resource_id : Option String) : String :=
  let tail := (path_parts path).getLast?.getD (String.ofList (lower method))
  if method = "POST" then
    -- an empty id would be falsy, but no part of a path is empty
    if resource_id.isSome && tail ∈ ["start", "pause", "resume", "cancel"] then
      resource_type ++ "." ++ tail
    else if resource_type = "auth" then "auth." ++ tail
    else resource_type ++ ".create"
  else if method = "PATCH" || method = "PUT" then resource_type ++ ".update"
  else if method = "DELETE" then resource_type ++ ".delete"
  else resource_type ++ "." ++ String.ofList (lower method)

/-- A row of `audit_logs`, as it is handed to the session. -/
structure AuditLog where
  timestamp : Int
  user_id : Option Nat
  username : Option String
  action : String
  resource_type : String
  resource_id : Option String
  ip_address : Option String
  method : String
  path : String
  status_code : String
deriving DecidableEq

/-- The username of the entry. -/
def audit_username (identity : Option UserIdentity) : Option String :=
  match identity with
  | none => none
  | some identity => if identity.username = "" then none else some identity.username

/-- `AuditMiddleware.dispatch`, once the response is there. -/
def audit_entry (jwt : String → Decoded) (now : Int) (status_code : Nat) (request : Request) :
    Option AuditLog :=
  if request.method ∉ MUTATING_METHODS then none
  else
    let (resource_type, resource_id) := extract_resource request.path
    some {
      timestamp := now,
      user_id := none,
      username := audit_username (user_identity jwt request),
      action := derive_action request.method request.path resource_type resource_id,
      resource_type := resource_type,
      resource_id := resource_id,
      ip_address := request.client_host,
      method := request.method,
      path := request.path,
      status_code := toString status_code }

example : extract_resource "/api/v1/jobs/abc-123/start" = ("replay_job", some "abc-123") := by
  decide +kernel

example : derive_action "POST" "/api/v1/jobs/abc-123/cancel" "replay_job" (some "abc-123")
    = "replay_job.cancel" := by decide +kernel

/-! ## The two identities of a request

The middleware looks in more places and asks for less, so whoever the dependency finds by a
token the middleware finds too. The converse fails for tokens that have expired and for accounts
that are gone or disabled. -/

variable {db : AuthDb} {sha256 : String → String} {early late : String → Decoded}
variable {trim : String → String} {now : Int} {request : Request} {token : String} {user : User}

theorem authenticate_jwt_ok {jwt : String → Decoded} (h : authenticate_jwt db jwt token = .ok user) :
    jwt token = .valid { sub := some user.username } := by
  unfold authenticate_jwt at h
  cases hjwt : jwt token with
  | expired payload => simp [hjwt] at h
  | invalid => simp [hjwt] at h
  | valid payload =>
      obtain ⟨sub⟩ := payload
      cases sub with
      | none => simp [hjwt] at h
      | some username =>
          simp only [hjwt] at h
          -- the one user of that name
          cases hrows : db.users.filter fun user => user.username = username with
          | nil => simp [hrows, scalar_one_or_none, bind, Except.bind] at h
          | cons row rows =>
              have hmem : row ∈ db.users.filter fun user => user.username = username := by
                rw [hrows]
                exact List.mem_cons_self ..
              cases rows with
              | cons row' rows => simp [hrows, scalar_one_or_none, bind, Except.bind] at h
              | nil =>
                  simp only [hrows, scalar_one_or_none, bind, Except.bind] at h
                  split at h
                  · cases h
                    have hname : user.username = username := by
                      simpa using (List.mem_filter.mp hmem).2
                    rw [hname]
                  · cases h

/-- What stands before the first blank, and what stands after it. -/
theorem eq_of_drop_blank {header : List Char}
    (h : (header.dropWhile fun c => c ≠ ' ').drop 1 ≠ []) :
    header = (header.takeWhile fun c => c ≠ ' ')
      ++ ' ' :: (header.dropWhile fun c => c ≠ ' ').drop 1 := by
  induction header with
  | nil => exact absurd rfl h
  | cons c cs ih =>
      by_cases hc : c = ' '
      · subst hc
        simp
      · simp only [List.dropWhile_cons, List.takeWhile_cons, hc, ne_eq, not_false_eq_true,
          decide_true, if_true, List.cons_append, List.cons.injEq, true_and] at h ⊢
        exact ih h

/-- A header FastAPI takes a token from, `AuthContextMiddleware` takes it from, too. -/
theorem extract_token_of_oauth2 (h : oauth2_scheme trim request.authorization = some token) :
    ∃ rest, token = trim rest ∧ (rest ≠ "" → extract_token request = some (strip rest)) := by
  unfold oauth2_scheme at h
  set header := (request.authorization.getD "").toList with hheader
  dsimp only at h
  split at h
  · cases h
  · rename_i hscheme
    cases h
    refine ⟨_, rfl, fun hrest => ?_⟩
    simp only [Bool.or_eq_true, not_or, decide_eq_true_eq, not_not] at hscheme
    set scheme := header.takeWhile fun c => decide (c ≠ ' ')
    set rest := (header.dropWhile fun c => decide (c ≠ ' ')).drop 1 with hrestdef
    have hsplit : header = scheme ++ ' ' :: rest :=
      eq_of_drop_blank fun hnil => hrest (by rw [← hrestdef] at hnil; rw [hnil])
    have hlength : scheme.length = 6 := by
      have := congrArg List.length hscheme.2
      simpa using this
    have hbearer : "bearer ".toList.isPrefixOf (header.map Char.toLower) = true := by
      rw [hsplit, List.map_append, hscheme.2]
      rfl
    have hdrop : header.drop 7 = rest := by
      rw [hsplit, List.drop_append, hlength, List.drop_eq_nil_of_le (by omega)]
      rfl
    unfold extract_token
    rw [← hheader]
    simp only [hbearer, if_true, hdrop]

/-- A request without an API key is authenticated by its token. -/
theorem get_current_user_ok (hkey : request.x_api_key.getD "" = "")
    (h : get_current_user db sha256 late trim now request = .ok user) :
    ∃ token, oauth2_scheme trim request.authorization = some token ∧ token ≠ "" ∧
      late token = .valid { sub := some user.username } := by
  unfold get_current_user at h
  rw [if_neg (not_not.mpr hkey)] at h
  split at h
  · cases h
  · rename_i token htoken
    split at h
    · cases h
    · rename_i hempty
      exact ⟨token, htoken, hempty, authenticate_jwt_ok h⟩

/-- The middleware finds the user of an authenticated token. -/
theorem user_identity_of_token (hjwt : Jwt early late)
    (htrim : ∀ s, trim s = s ∨ trim s = strip s) {payload : Payload}
    (h : oauth2_scheme trim request.authorization = some token)
    (hvalid : late token = .valid payload) :
    user_identity early request
      = some { username := payload.sub.getD "", is_expired := false } := by
  -- a token that decodes late decoded early
  have hearly : ∀ token, late token = .valid payload → early token = .valid payload := by
    intro token hlate
    rcases hjwt.expires token with hsame | ⟨payload', -, hexpired⟩
    · rw [← hsame, hlate]
    · rw [hlate] at hexpired
      cases hexpired
  have hnonempty : ∀ token, late token = .valid payload → token ≠ "" := by
    rintro token hlate rfl
    have hempty := hearly "" hlate
    rw [hjwt.empty] at hempty
    cases hempty
  obtain ⟨rest, rfl, hextract⟩ := extract_token_of_oauth2 h
  have hstrip : late (strip rest) = .valid payload := by
    rcases htrim rest with htrim | htrim
    · exact hjwt.blanks rest payload (htrim ▸ hvalid)
    · exact htrim ▸ hvalid
  have hrest : rest ≠ "" := by
    rintro rfl
    exact hnonempty (strip "") hstrip rfl
  unfold user_identity
  rw [hextract hrest]
  simp only [if_neg (hnonempty _ hstrip), decode_identity, hearly _ hstrip]

/-- The names the middleware finds are those of signed tokens. -/
theorem audit_username_iff (jwt : String → Decoded) (request : Request) (name : String) :
    audit_username (user_identity jwt request) = some name ↔
      name ≠ "" ∧ ∃ token payload, extract_token request = some token ∧ token ≠ "" ∧
        (jwt token = .valid payload ∨ jwt token = .expired (some payload)) ∧
        payload.sub = some name := by
  unfold user_identity
  cases hextract : extract_token request with
  | none => simp [audit_username]
  | some token =>
      by_cases hempty : token = ""
      · simp [hempty, audit_username]
      · simp only [if_neg hempty, audit_username, decode_identity]
        have hsub : ∀ sub : Option String,
            ((if sub.getD "" = "" then none else some (sub.getD "")) = some name ↔
              name ≠ "" ∧ sub = some name) := by
          intro sub
          cases sub with
          | none => simp
          | some username =>
              by_cases husername : username = ""
              · subst husername
                simp only [Option.getD_some, if_true, reduceCtorEq, false_iff, not_and]
                exact fun hne heq => hne (Option.some.inj heq).symm
              · simp only [Option.getD_some, if_neg husername, Option.some.injEq]
                exact ⟨fun h => ⟨h ▸ husername, h⟩, fun h => h.2⟩
        cases hjwt : jwt token with
        | invalid => simp [hjwt]
        | valid payload => simp [hjwt, hsub, hempty]
        | expired payload =>
            cases payload with
            | none => simp [hjwt]
            | some payload => simp [hjwt, hsub, hempty]

/-- **Who the audit log names.** Without an API key, the user the request is authenticated as, by
name; and of a request that is refused, with an API key or without, the `sub` of the token it
presents, if that is signed, expired or not. -/
theorem audit_names_user (hjwt : Jwt early late) (htrim : ∀ s, trim s = s ∨ trim s = strip s)
    (hmutating : request.method ∈ MUTATING_METHODS) (status_code : Nat) (timestamp : Int) :
    ∃ entry, audit_entry early timestamp status_code request = some entry ∧
      (∀ user, request.x_api_key.getD "" = "" →
        get_current_user db sha256 late trim now request = .ok user →
        entry.username = if user.username = "" then none else some user.username) ∧
      ∀ refusal, get_current_user db sha256 late trim now request = .error refusal →
        ∀ name, entry.username = some name ↔ name ≠ "" ∧ ∃ token payload,
          extract_token request = some token ∧ token ≠ "" ∧
          (early token = .valid payload ∨ early token = .expired (some payload)) ∧
          payload.sub = some name := by
  refine ⟨_, by rw [audit_entry, if_neg (not_not.mpr hmutating)], ?_, ?_⟩
  · intro user hkey huser
    obtain ⟨token, htoken, -, hvalid⟩ := get_current_user_ok hkey huser
    dsimp only
    rw [user_identity_of_token hjwt htrim htoken hvalid]
    rfl
  · intro refusal _ name
    exact audit_username_iff early request name

/-- A secret that signed the token of one user, which has expired or has not. -/
def sampleJwt (expired : Bool) (token : String) : Decoded :=
  if token = "abc" then
    if expired then .expired (some { sub := some "alice" }) else .valid { sub := some "alice" }
  else .invalid

def sampleRequest : Request :=
  { method := "POST", path := "/api/v1/jobs", client_host := some "10.0.0.1",
    authorization := some "Bearer abc", token := none, x_api_key := none }

def sampleUser : User :=
  { id := 1, username := "alice", email := "", hashed_password := "", is_active := true,
    is_superuser := false, role := .operator }

def sampleDb : AuthDb := { users := [sampleUser], api_keys := [], aware := true }

theorem sampleJwt_jwt (expired : Bool) : Jwt (sampleJwt expired) (sampleJwt expired) where
  expires := fun _ => Or.inl rfl
  blanks := by
    intro token payload h
    by_cases htoken : token = "abc"
    · subst htoken
      exact h
    · simp [sampleJwt, htoken] at h
  empty := rfl

theorem audit_names_user_alice :
    ∃ entry, audit_entry (sampleJwt false) 0 201 sampleRequest = some entry ∧
      (∀ user, sampleRequest.x_api_key.getD "" = "" →
        get_current_user sampleDb id (sampleJwt false) strip 0 sampleRequest = .ok user →
        entry.username = if user.username = "" then none else some user.username) ∧
      ∀ refusal,
        get_current_user sampleDb id (sampleJwt false) strip 0 sampleRequest = .error refusal →
        ∀ name, entry.username = some name ↔ name ≠ "" ∧ ∃ token payload,
          extract_token sampleRequest = some token ∧ token ≠ "" ∧
          (sampleJwt false token = .valid payload ∨
            sampleJwt false token = .expired (some payload)) ∧
          payload.sub = some name :=
  audit_names_user (sampleJwt_jwt false) (fun _ => Or.inr rfl) (by decide) 201 0

/-- A request refused for its expired token is logged under the name in the token. -/
theorem expired_token_audited : ¬ ∀ (db : AuthDb) (sha256 : String → String)
    (early late : String → Decoded) (trim : String → String) (now timestamp : Int)
    (status_code : Nat) (request : Request) (entry : AuditLog),
    Jwt early late → (∀ s, trim s = s ∨ trim s = strip s) →
    audit_entry early timestamp status_code request = some entry →
    (∀ user, get_current_user db sha256 late trim now request = .ok user →
      entry.username = some user.username) ∧
    ∀ refusal, get_current_user db sha256 late trim now request = .error refusal →
      entry.username = none := by
  intro h
  obtain ⟨entry, hentry⟩ : ∃ entry,
      audit_entry (sampleJwt true) 0 401 sampleRequest = some entry := ⟨_, rfl⟩
  have hrefused : get_current_user sampleDb id (sampleJwt true) strip 0 sampleRequest
      = .error token_expired := by decide +kernel
  have hnone := (h sampleDb id (sampleJwt true) (sampleJwt true) strip 0 0 401 sampleRequest entry
    (sampleJwt_jwt true) (fun _ => Or.inr rfl) hentry).2 _ hrefused
  have hname : (audit_entry (sampleJwt true) 0 401 sampleRequest).map AuditLog.username
      = some (some "alice") := by decide +kernel
  rw [hentry, Option.map_some, hnone] at hname
  cases hname

end WalStream.Middleware
