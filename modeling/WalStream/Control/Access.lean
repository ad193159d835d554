/-
Who may do what: accounts, passwords and tokens of the control plane.

Accounts come from `register_user`, as viewers, or from whoever has the database at hand.
`login_for_access_token` signs a token that names the account; a request is granted its
endpoint by the account its token names at that time, or by an API key, and endpoints that
change jobs ask for an operator.

Hashing, bcrypt and the JWT library are parameters. Times are seconds: the claims of a token
keep no more of them.
-/
import WalStream.Control.DedupStore
import WalStream.Lib.Lists
import WalStream.Lib.Potential
import WalStream.Middleware.Audit

set_option autoImplicit false

namespace WalStream.Control

open Lib Middleware

/-! ## Roles -/

/-- `_ROLE_RANK`. -/
def ROLE_RANK : UserRole → Nat
  | .viewer => 0
  | .operator => 1
  | .admin => 2

def role_at_least (user_role minimum : UserRole) : Bool := ROLE_RANK minimum ≤ ROLE_RANK user_role

/-- `UserRole.value`. -/
def role_value : UserRole → String
  | .admin => "admin"
  | .operator => "operator"
  | .viewer => "viewer"

def role_required (minimum : UserRole) : Refusal :=
  .http 403 ("Role '" ++ role_value minimum ++ "' or higher required") []

/-- `require_role`, with the user of the request. -/
def require_role (minimum : UserRole) (user : User) : Except Refusal User :=
  if role_at_least user.role minimum then .ok user else .error (role_required minimum)

/-! ## The libraries

Signing, hashing and password checks are the libraries' and are taken as they are. `Lawful` says
of them what their documentation says; that nobody else can sign is not among it, and is a
condition on runs. -/

/-- The claims of an access token. -/
structure Claims where
  sub : String
  exp : Int
deriving DecidableEq

/-- The settings and the libraries: `none` stands for an exception. -/
structure Security where
  sha256 : String → String
  /-- `pwd_context.hash`, with the salt it draws. -/
  hash : String → String → Option String
  verify : String → String → Option Bool
  encode : Claims → String
  /-- `jwt.decode`, at a time. -/
  decode : Int → String → Decoded
  /-- What `OAuth2PasswordBearer` does to what follows the scheme. -/
  trim : String → String
  jwt_expiration_minutes : Nat

/-- What the libraries are documented to do. -/
structure Security.Lawful (sec : Security) : Prop where
  verify_hash : ∀ salt password hashed,
    sec.hash salt password = some hashed → sec.verify password hashed = some true
  /-- A hash has 60 characters. -/
  hash_length : ∀ salt password hashed,
    sec.hash salt password = some hashed → varchar 255 hashed = some hashed
  decode_encode : ∀ now claims, now ≤ claims.exp →
    sec.decode now (sec.encode claims) = .valid { sub := some claims.sub }
  encode_ne : ∀ claims, sec.encode claims ≠ ""
  trim_encode : ∀ claims, sec.trim (sec.encode claims) = sec.encode claims

/-! ## The tables

Usernames, e-mail addresses and keys are unique by constraints of the database, so a table is
built with the proofs of it, and a row can only be added where it breaks none. -/

/-- The tables with their unique constraints. -/
structure AuthTables extends AuthDb where
  ids : (users.map User.id).Nodup
  usernames : (users.map User.username).Nodup
  emails : (users.map User.email).Nodup
  key_hashes : (api_keys.map ApiKey.key_hash).Nodup

/-- No row of the table has a unique value of the new one. -/
def AuthTables.Free (db : AuthTables) (user : User) : Prop :=
  ∀ row ∈ db.users, row.id ≠ user.id ∧ row.username ≠ user.username ∧ row.email ≠ user.email

instance (db : AuthTables) (user : User) : Decidable (db.Free user) :=
  inferInstanceAs (Decidable (∀ row ∈ db.users, _))

/-- The table with one more user. -/
def AuthTables.add (db : AuthTables) (user : User) (h : db.Free user) : AuthTables :=
  { db with
    users := db.users ++ [user],
    ids := nodup_map_append_singleton db.ids fun row hrow => (h row hrow).1,
    usernames := nodup_map_append_singleton db.usernames fun row hrow => (h row hrow).2.1,
    emails := nodup_map_append_singleton db.emails fun row hrow => (h row hrow).2.2 }

/-! ## `auth.py` -/

structure UserCreate where
  username : String
  email : String
  password : String
deriving DecidableEq

def authenticate_user (sec : Security) (db : AuthTables) (username password : String) :
    Except Refusal (Option User) := do
  match ← scalar_one_or_none (db.users.filter fun user => user.username = username) with
  | none => .ok none
  | some user =>
      match sec.verify password user.hashed_password with
      | none => .error (.raised "UnknownHashError")
      | some true => .ok (some user)
      | some false => .ok none

def incorrect_password : Refusal :=
  .http 401 "Incorrect username or password" [("WWW-Authenticate", "Bearer")]

/-- What `create_access_token` signs. -/
def access_claims (sec : Security) (now : Int) (username : String) : Claims :=
  { sub := username, exp := now + 60 * sec.jwt_expiration_minutes }

/-- `login_for_access_token`, up to the signature. -/
def login_for_access_token (sec : Security) (db : AuthTables) (now : Int)
    (username password : String) : Except Refusal Claims := do
  match ← authenticate_user sec db username password with
  | none => .error incorrect_password
  | some user => .ok (access_claims sec now user.username)

/-- The two checks of `register_user`, each by a statement of its own. -/
def check_username (db : AuthTables) (user_in : UserCreate) : Except Refusal Unit := do
  match ← scalar_one_or_none (db.users.filter fun user => user.username = user_in.username) with
  | none => .ok ()
  | some _ => .error (.http 400 "Username already registered" [])

def check_email (db : AuthTables) (user_in : UserCreate) : Except Refusal Unit := do
  match ← scalar_one_or_none (db.users.filter fun user => user.email = user_in.email) with
  | none => .ok ()
  | some _ => .error (.http 400 "Email already registered" [])

/-- The new row, with the defaults of the model. -/
def new_user (user_in : UserCreate) (id : Nat) (hashed_password : String) : User :=
  { id := id,
    username := user_in.username,
    email := user_in.email,
    hashed_password := hashed_password,
    is_active := true,
    is_superuser := false,
    role := .viewer }

/-- What the columns of `users` make of a row; `none` if one of them refuses its text. -/
def stored_user (user : User) : Option User := do
  let username ← varchar 50 user.username
  let email ← varchar 255 user.email
  let hashed_password ← varchar 255 user.hashed_password
  return { user with username := username, email := email, hashed_password := hashed_password }

/-- The rest of `register_user`: the password is hashed and the row inserted. -/
def insert_user (sec : Security) (db : AuthTables) (user_in : UserCreate) (id : Nat)
    (salt : String) : Except Refusal AuthTables :=
  match sec.hash salt user_in.password with
  | none => .error (.raised "ValueError")
  | some hashed =>
      match stored_user (new_user user_in id hashed) with
      | none => .error (.raised "DataError")
      | some user =>
          if h : db.Free user then .ok (db.add user h) else .error (.raised "IntegrityError")

/-! ## Endpoints -/

inductive Endpoint
  | create_job
  | list_jobs
  | get_job
  | update_job
  | delete_job
  | start_job
  | pause_job
  | resume_job
  | cancel_job
  | get_stream_stats
  | get_recent_events
  | websocket_event_stream
  | get_current_user_info
deriving DecidableEq

/-- The role an endpoint asks for: `OperatorUser`, or `CurrentUser` for none. -/
def Endpoint.minimum : Endpoint → Option UserRole
  | .create_job | .update_job | .delete_job => some .operator
  | .start_job | .pause_job | .resume_job | .cancel_job => some .operator
  | .list_jobs | .get_job => none
  | .get_stream_stats | .get_recent_events | .websocket_event_stream => none
  | .get_current_user_info => none

/-- `ws_authenticate`: the exception it raises after it has closed the socket with 4401. -/
def ws_authenticate (db : AuthDb) (jwt : String → Decoded) (token : Option String) :
    Except Refusal User := do
  if token.getD "" = "" then .error (.http 401 "Missing token" [])
  else
    match jwt (token.getD "") with
    | .expired _ => .error (.http 401 "Token expired" [])
    | .invalid => .error (.http 401 "Invalid token" [])
    | .valid payload =>
        match payload.sub with
        | none => .error (.http 401 "Invalid token" [])
        | some username =>
            match ← scalar_one_or_none (db.users.filter fun user => user.username = username) with
            | none => .error (.http 401 "Invalid user" [])
            | some user => if user.is_active then .ok user else .error (.http 401 "Invalid user" [])

/-- The dependency of an endpoint: who the request is granted to. -/
def authorize (sec : Security) (db : AuthDb) (now : Int) (endpoint : Endpoint) (request : Request) :
    Except Refusal User :=
  match endpoint with
  | .websocket_event_stream => ws_authenticate db (sec.decode now) request.token
  | endpoint => do
      let user ← get_current_user db sec.sha256 (sec.decode now) sec.trim now request
      match endpoint.minimum with
      | none => .ok user
      | some minimum => require_role minimum user

/-! ## The system

The accounts, the tokens that have been signed and the clock. Others may write the tables too,
so accounts can be disabled, removed and given a role between any two requests; a result that
needs more says so. -/

structure Access where
  db : AuthTables
  now : Int
  /-- The registrations whose username was free when they looked. -/
  named : List UserCreate
  /-- Those whose email was free, too. -/
  checked : List UserCreate
  /-- The claims signed so far. -/
  issued : List Claims

inductive AccessAction
  | tick (seconds : Nat)
  | token (username password : String)
  | check_username (user_in : UserCreate)
  | check_email (user_in : UserCreate)
  /-- `db.commit()`, with the id and the salt drawn. -/
  | insert (user_in : UserCreate) (id : Nat) (salt : String)
  | request (endpoint : Endpoint) (request : Request)
  /-- Somebody changes the tables by other means than the API. -/
  | manage (db : AuthTables)

def Access.initial (db : AuthTables) (now : Int) : Access :=
  { db := db,
    now := now,
    named := [],
    checked := [],
    issued := [] }

def Access.step (sec : Security) (s : Access) : AccessAction → Option Access
  | .tick seconds => some { s with now := s.now + seconds }
  | .token username password =>
      match login_for_access_token sec s.db s.now username password with
      | .ok claims => some { s with issued := claims :: s.issued }
      | .error _ => some s
  | .check_username user_in =>
      match Control.check_username s.db user_in with
      | .ok () => some { s with named := user_in :: s.named }
      | .error _ => some s
  | .check_email user_in =>
      if user_in ∈ s.named then
        match Control.check_email s.db user_in with
        | .ok () =>
            some { s with named := s.named.erase user_in, checked := user_in :: s.checked }
        | .error _ => some { s with named := s.named.erase user_in }
      else none
  | .insert user_in id salt =>
      if user_in ∈ s.checked then
        match insert_user sec s.db user_in id salt with
        | .ok db => some { s with db := db, checked := s.checked.erase user_in }
        | .error _ => some { s with checked := s.checked.erase user_in }
      else none
  | .request _ _ => some s
  | .manage db => some { s with db := db }

/-- Who a request is granted to. -/
def Access.grants (sec : Security) (s : Access) (endpoint : Endpoint) (request : Request) :
    Except Refusal User :=
  authorize sec s.db.toAuthDb s.now endpoint request

/-! ## Looking up

What each function of `auth.py` lets through, from the exception monad to a statement on rows.
The rest of the module reads these and not the code. -/

section

variable {sec : Security} {db : AuthTables} {user : User} {username password : String}

/-- A computation that goes on has a result. -/
theorem bind_eq_ok {ε α β : Type} {x : Except ε α} {f : α → Except ε β} {b : β} :
    x >>= f = .ok b ↔ ∃ a, x = .ok a ∧ f a = .ok b := by
  cases x with
  | error e => exact ⟨fun h => (nomatch h), fun ⟨_, h, _⟩ => (nomatch h)⟩
  | ok a => exact ⟨fun h => ⟨a, rfl, h⟩, fun ⟨_, h, hf⟩ => (Except.ok.inj h) ▸ hf⟩

/-- `scalar_one_or_none` returns a row of the result, and raises if there are two of them. -/
theorem mem_of_scalar {α : Type} {rows : List α} {row : α}
    (h : scalar_one_or_none rows = .ok (some row)) : row ∈ rows := by
  match rows with
  | [] => cases h
  | [_] => cases h; exact List.mem_singleton_self _
  | _ :: _ :: _ => cases h

/-- A query by a unique column finds the one row it is asked for. That user names are unique is
a constraint of the table, which `AuthTables` carries. -/
theorem scalar_of_user (h : user ∈ db.users) :
    scalar_one_or_none (db.users.filter fun row => row.username = user.username)
      = .ok (some user) := by
  rw [filter_key_of_mem db.usernames h]
  rfl

/-- The user a token is good for. -/
theorem authenticate_jwt_spec {db : AuthDb} {jwt : String → Decoded} {token : String}
    (h : authenticate_jwt db jwt token = .ok user) :
    jwt token = .valid { sub := some user.username } ∧ user ∈ db.users ∧ user.is_active = true := by
  refine ⟨authenticate_jwt_ok h, ?_⟩
  unfold authenticate_jwt at h
  split at h
  · cases h
  · cases h
  · split at h
    · cases h
    · obtain ⟨row, hrow, h⟩ := bind_eq_ok.mp h
      cases row with
      | none => cases h
      | some row =>
          dsimp only at h
          split at h
          · rename_i hactive
            cases h
            exact ⟨(List.mem_filter.mp (mem_of_scalar hrow)).1, hactive⟩
          · cases h

/-- **The WebSocket takes the tokens that the header takes.** -/
theorem ws_authenticate_iff {db : AuthDb} {jwt : String → Decoded} {token : Option String} :
    ws_authenticate db jwt token = .ok user ↔
      token.getD "" ≠ "" ∧ authenticate_jwt db jwt (token.getD "") = .ok user := by
  unfold ws_authenticate authenticate_jwt
  by_cases hempty : token.getD "" = ""
  · simp [hempty]
  · rw [if_neg hempty]
    refine Iff.trans ?_ (and_iff_right hempty).symm
    cases jwt (token.getD "") with
    | expired payload => simp
    | invalid => simp
    | valid payload =>
        obtain ⟨sub⟩ := payload
        cases sub with
        | none => simp
        | some username =>
            -- they differ in the answer to a disabled account
            simp only [bind_eq_ok]
            refine exists_congr fun row => and_congr_right fun _ => ?_
            cases row with
            | none => simp
            | some row =>
                dsimp only
                split
                · exact Iff.rfl
                · exact ⟨(fun h' => by cases h'), fun h' => by cases h'⟩

/-- The sign-in returns an account of the name, whose stored hash the password verifies against. -/
theorem authenticate_user_spec (h : authenticate_user sec db username password = .ok (some user)) :
    user ∈ db.users ∧ user.username = username ∧
      sec.verify password user.hashed_password = some true := by
  obtain ⟨row, hrow, h⟩ := bind_eq_ok.mp h
  cases row with
  | none => cases h
  | some row =>
      dsimp only at h
      split at h
      · cases h
      · rename_i hverify
        cases h
        have hmem := List.mem_filter.mp (mem_of_scalar hrow)
        exact ⟨hmem.1, of_decide_eq_true hmem.2, hverify⟩
      · cases h

/-- The password of an account signs in. -/
theorem login_of_user {now : Int} (h : user ∈ db.users)
    (hverify : sec.verify password user.hashed_password = some true) :
    login_for_access_token sec db now user.username password
      = .ok (access_claims sec now user.username) := by
  simp only [login_for_access_token, authenticate_user, scalar_of_user h, bind, Except.bind, hverify]

/-- What the sign-in signs, and for whom. -/
theorem login_spec {now : Int} {claims : Claims}
    (h : login_for_access_token sec db now username password = .ok claims) :
    claims = access_claims sec now username ∧
      ∃ user ∈ db.users, user.username = username ∧
        sec.verify password user.hashed_password = some true := by
  obtain ⟨user, huser, h⟩ := bind_eq_ok.mp h
  cases user with
  | none => cases h
  | some user =>
      cases h
      obtain ⟨hmem, hname, hverify⟩ := authenticate_user_spec huser
      exact ⟨by rw [hname], user, hmem, hname, hverify⟩

end

/-! ## Who changed a job

A request is granted for a key or for a token. A token that nobody has forged was signed by the
sign-in, and so for a password that was right then; the account may have changed since, and the
role that is asked for is that of the account now. -/

/-- The token a request carries, for the header or for the WebSocket. -/
def Presents (sec : Security) (request : Request) (token : String) : Prop :=
  oauth2_scheme sec.trim request.authorization = some token ∨ request.token = some token

/-- Nobody else has the secret: a token that decodes has been issued and has not expired. -/
def Unforged (sec : Security) (s : Access) : AccessAction → Prop
  | .request _ request => ∀ token payload, Presents sec request token →
      sec.decode s.now token = .valid payload →
      ∃ claims ∈ s.issued, payload.sub = some claims.sub ∧ s.now ≤ claims.exp
  | _ => True

/-- The request was granted for an API key. -/
def ByKey (sec : Security) (s : Access) (request : Request) (user : User) : Prop :=
  ∃ key ∈ s.db.api_keys, key.key_hash = sec.sha256 (request.x_api_key.getD "") ∧
    key.is_active = true ∧ (∀ expires_at, key.expires_at = some expires_at → s.now ≤ expires_at) ∧
    user = service_user key

/-- The name has signed in with a password of its account, and the token is not too old. -/
def SignedIn (sec : Security) (older : List (Access × AccessAction)) (username : String)
    (now : Int) : Prop :=
  ∃ p ∈ older, ∃ password, p.2 = .token username password ∧
    (∃ user ∈ p.1.db.users, user.username = username ∧
      sec.verify password user.hashed_password = some true) ∧
    now ≤ p.1.now + 60 * sec.jwt_expiration_minutes

section

variable {sec : Security} {s t : Access} {a : AccessAction} {tr : List (Access × AccessAction)}
variable {endpoint : Endpoint} {request : Request} {user : User}

/-- What a step does to the accounts. -/
theorem step_db (h : s.step sec a = some t) :
    t.db = s.db ∨ a = .manage t.db ∨
      ∃ user_in id salt, a = .insert user_in id salt ∧
        insert_user sec s.db user_in id salt = .ok t.db := by
  cases a with
  | tick seconds => cases h; exact .inl rfl
  | token username password =>
      simp only [Access.step] at h
      split at h <;> cases h <;> exact .inl rfl
  | check_username user_in =>
      simp only [Access.step] at h
      split at h <;> cases h <;> exact .inl rfl
  | check_email user_in =>
      simp only [Access.step] at h
      split at h
      · split at h <;> cases h <;> exact .inl rfl
      · cases h
  | insert user_in id salt =>
      simp only [Access.step] at h
      split at h
      · split at h
        · rename_i db hdb
          cases h
          exact .inr (.inr ⟨user_in, id, salt, rfl, hdb⟩)
        · cases h
          exact .inl rfl
      · cases h
  | request endpoint request => cases h; exact .inl rfl
  | manage db => cases h; exact .inr (.inl rfl)

/-- What a step signs. -/
theorem step_issued (h : s.step sec a = some t) :
    t.issued = s.issued ∨
      ∃ username password claims, a = .token username password ∧
        login_for_access_token sec s.db s.now username password = .ok claims ∧
        t.issued = claims :: s.issued := by
  cases a with
  | tick seconds => cases h; exact .inl rfl
  -- the sign-in is the only endpoint that signs
  | token username password =>
      simp only [Access.step] at h
      split at h
      · rename_i claims hclaims
        cases h
        exact .inr ⟨username, password, claims, rfl, hclaims, rfl⟩
      · cases h
        exact .inl rfl
  | check_username user_in =>
      simp only [Access.step] at h
      split at h <;> cases h <;> exact .inl rfl
  | check_email user_in =>
      simp only [Access.step] at h
      split at h
      · split at h <;> cases h <;> exact .inl rfl
      · cases h
  | insert user_in id salt =>
      simp only [Access.step] at h
      split at h
      · split at h <;> cases h <;> exact .inl rfl
      · cases h
  | request endpoint request => cases h; exact .inl rfl
  | manage db => cases h; exact .inl rfl

/-- All that is signed was signed for a password. -/
theorem issued_signedIn {s₀ : Access} (h0 : s₀.issued = []) (hrun : Run (Access.step sec) s₀ tr s) :
    ∀ claims ∈ s.issued, ∀ now ≤ claims.exp, SignedIn sec tr claims.sub now := by
  induction hrun with
  | nil =>
      rw [h0]
      exact fun _ h' => absurd h' List.not_mem_nil
  | cons _ hs ih =>
      have hold {username : String} {now : Int} {p : Access × AccessAction}
          {tr : List (Access × AccessAction)} (h : SignedIn sec tr username now) :
          SignedIn sec (p :: tr) username now := by
        obtain ⟨q, hq, hrest⟩ := h
        exact ⟨q, List.mem_cons_of_mem _ hq, hrest⟩
      intro claims hclaims now hnow
      rcases step_issued hs with hsame | ⟨username, password, signed, rfl, hlogin, hissued⟩
      · rw [hsame] at hclaims
        exact hold (ih claims hclaims now hnow)
      · rw [hissued] at hclaims
        rcases List.mem_cons.mp hclaims with rfl | hclaims
        · obtain ⟨rfl, hverified⟩ := login_spec hlogin
          exact ⟨_, List.mem_cons_self .., password, rfl, hverified, hnow⟩
        · exact hold (ih claims hclaims now hnow)

/-- An operator's endpoint is granted to operators. -/
theorem grants_operator (hmin : endpoint.minimum = some .operator)
    (h : s.grants sec endpoint request = .ok user) :
    get_current_user s.db.toAuthDb sec.sha256 (sec.decode s.now) sec.trim s.now request = .ok user ∧
      role_at_least user.role .operator = true := by
  have hgrants : s.grants sec endpoint request = (do
      let user ← get_current_user s.db.toAuthDb sec.sha256 (sec.decode s.now) sec.trim s.now request
      require_role .operator user) := by
    cases endpoint <;> first | rfl | cases hmin
  rw [hgrants] at h
  obtain ⟨row, hrow, h⟩ := bind_eq_ok.mp h
  unfold require_role at h
  split at h
  · rename_i hrole
    cases h
    exact ⟨hrow, hrole⟩
  · cases h

/-- A request with an API key is granted for the key alone. -/
theorem byKey_of_current_user {jwt : String → Decoded} (hkey : request.x_api_key.getD "" ≠ "")
    (h : get_current_user s.db.toAuthDb sec.sha256 jwt sec.trim s.now request = .ok user) :
    ByKey sec s request user := by
  unfold get_current_user at h
  rw [if_pos hkey] at h
  obtain ⟨found, hfound, h⟩ := bind_eq_ok.mp h
  cases found with
  | none => cases h
  | some found =>
      cases h
      obtain ⟨row, hrow, hfound⟩ := bind_eq_ok.mp hfound
      cases row with
      | none => cases hfound
      | some row =>
          obtain ⟨expired, hexpired, hfound⟩ := bind_eq_ok.mp hfound
          cases expired with
          | true => cases hfound
          | false =>
              cases hfound
              have hmem := List.mem_filter.mp (mem_of_scalar hrow)
              rw [Bool.and_eq_true, decide_eq_true_eq] at hmem
              refine ⟨row, hmem.1, hmem.2.1, hmem.2.2, fun expires_at hat => ?_, rfl⟩
              simp only [key_expired, hat] at hexpired
              split at hexpired
              · cases hexpired
              · simp only [Except.ok.injEq, decide_eq_false_iff_not, Int.not_lt] at hexpired
                exact hexpired

/-- A request without one is granted for its token. -/
theorem jwt_of_current_user {jwt : String → Decoded} (hkey : request.x_api_key.getD "" = "")
    (h : get_current_user s.db.toAuthDb sec.sha256 jwt sec.trim s.now request = .ok user) :
    ∃ token, oauth2_scheme sec.trim request.authorization = some token ∧
      jwt token = .valid { sub := some user.username } ∧ user ∈ s.db.users ∧
      user.is_active = true := by
  obtain ⟨token, htoken, hne, -⟩ := get_current_user_ok hkey h
  have hjwt : authenticate_jwt s.db.toAuthDb jwt token = .ok user := by
    unfold get_current_user at h
    rw [if_neg (not_not.mpr hkey), htoken] at h
    simpa only [if_neg hne] using h
  exact ⟨token, htoken, authenticate_jwt_spec hjwt⟩

/-- **Who changes a job has signed in.** In every run in which no token is forged, whatever
happens to the accounts: a request that an endpoint for operators is granted to carries an
active API key, or a token signed earlier in the run for a password of the account it names,
which has not expired; and that account is there now, is active and is an operator's. -/
theorem job_change_authenticated {db : AuthTables} {now : Int}
    {older : List (Access × AccessAction)}
    (hrun : Run (Access.step sec) (Access.initial db now) tr t) (hforge : StepsMeet (Unforged sec) tr)
    (hstep : (s, .request endpoint request) :: older <:+ tr)
    (hmin : endpoint.minimum = some .operator) (h : s.grants sec endpoint request = .ok user) :
    ByKey sec s request user ∨
      user ∈ s.db.users ∧ user.is_active = true ∧ role_at_least user.role .operator = true ∧
        SignedIn sec older user.username s.now := by
  obtain ⟨huser, hrole⟩ := grants_operator hmin h
  by_cases hkey : request.x_api_key.getD "" = ""
  · right
    obtain ⟨token, htoken, hvalid, hmem, hactive⟩ := jwt_of_current_user hkey huser
    have hunforged := hforge _ (hstep.subset (List.mem_cons_self ..))
    obtain ⟨claims, hissued, hsub, hexp⟩ := hunforged token _ (.inl htoken) hvalid
    have hsigned := issued_signedIn rfl (hrun.before hstep) claims hissued s.now hexp
    rw [← Option.some.inj hsub] at hsigned
    exact ⟨hmem, hactive, hrole, hsigned⟩
  · exact .inl (byKey_of_current_user hkey huser)

/-! ## No escalation

The registration is the one endpoint that writes `users`, and it leaves the role to the default
of the model, a viewer. So the accounts at the start are the only ones to have more. -/

/-- The tables change through the API only. -/
def Unmanaged (_ : Access) : AccessAction → Prop
  | .manage _ => False
  | _ => True

/-- What the columns keep of a new row: the texts, less the blanks over their lengths. -/
theorem stored_user_spec {user row : User} (h : stored_user user = some row) :
    varchar 50 user.username = some row.username ∧ varchar 255 user.email = some row.email ∧
      varchar 255 user.hashed_password = some row.hashed_password ∧
      row.is_active = user.is_active ∧ row.role = user.role ∧
      row.is_superuser = user.is_superuser := by
  simp only [stored_user, Option.bind_eq_bind, Option.bind_eq_some_iff, Option.pure_def,
    Option.some.injEq] at h
  obtain ⟨username, husername, email, hemail, hashed, hhashed, rfl⟩ := h
  exact ⟨husername, hemail, hhashed, rfl, rfl, rfl⟩

/-- A registration that succeeds has hashed the password and put in the row the columns keep; it
changes nothing else. -/
theorem insert_user_spec {db db' : AuthTables} {user_in : UserCreate} {id : Nat} {salt : String}
    (h : insert_user sec db user_in id salt = .ok db') :
    ∃ hashed user, sec.hash salt user_in.password = some hashed ∧
      stored_user (new_user user_in id hashed) = some user ∧
      db'.users = db.users ++ [user] ∧ db'.api_keys = db.api_keys := by
  unfold insert_user at h
  split at h
  · cases h
  · rename_i hashed hhash
    split at h
    · cases h
    · rename_i user hstored
      split at h
      · cases h
        exact ⟨hashed, user, hhash, hstored, rfl, rfl⟩
      · cases h

/-- The accounts are those at the start and viewers. -/
structure Access.Kept (s : Access) (db : AuthTables) : Prop where
  keys : s.db.api_keys = db.api_keys
  users : ∃ registered, s.db.users = db.users ++ registered ∧
    ∀ user ∈ registered, user.role = .viewer ∧ user.is_superuser = false

/-- **One step** that changes the tables through the API only: a registration adds a viewer, and
no endpoint writes a role. -/
theorem Access.Kept.step {db : AuthTables} (h : s.Kept db) (hunmanaged : Unmanaged s a)
    (hs : s.step sec a = some t) : t.Kept db := by
  rcases step_db hs with hsame | rfl | ⟨user_in, id, salt, rfl, hinsert⟩
  · exact ⟨hsame ▸ h.keys, hsame ▸ h.users⟩
  · exact hunmanaged.elim
  · obtain ⟨hashed, row, -, hstored, husers, hkeys⟩ := insert_user_spec hinsert
    obtain ⟨-, -, -, -, hrole, hsuperuser⟩ := stored_user_spec hstored
    obtain ⟨registered, hold, hviewers⟩ := h.users
    refine ⟨hkeys.trans h.keys, registered ++ [row], ?_, ?_⟩
    · rw [husers, hold, List.append_assoc]
    · intro user huser
      rcases List.mem_append.mp huser with huser | huser
      · exact hviewers user huser
      · obtain rfl := List.mem_singleton.mp huser
        exact ⟨hrole, hsuperuser⟩

/-- **Nobody gains a role through the API.** As long as nobody changes the tables by other
means, a job is changed only on behalf of an API key or of an operator's account that were
there at the start, whatever accounts are registered meanwhile. -/
theorem only_first_operators {db : AuthTables} {now : Int}
    (hrun : Run (Access.step sec) (Access.initial db now) tr t) (hunmanaged : StepsMeet Unmanaged tr)
    (hstep : (s, .request endpoint request) ∈ tr)
    (hmin : endpoint.minimum = some .operator) (h : s.grants sec endpoint request = .ok user) :
    (∃ key ∈ db.api_keys, key.is_active = true ∧ user = service_user key) ∨
      user ∈ db.users ∧ user.is_active = true ∧ role_at_least user.role .operator = true := by
  have hkept : s.Kept db := Run.invariant_mem (I := fun s => s.Kept db) (C := Unmanaged)
    (fun _ _ _ h hC hs => h.step hC hs)
    ⟨rfl, [], (List.append_nil _).symm, fun _ h' => absurd h' List.not_mem_nil⟩ hrun hunmanaged
    _ hstep
  obtain ⟨huser, hrole⟩ := grants_operator hmin h
  by_cases hkey : request.x_api_key.getD "" = ""
  · right
    obtain ⟨-, -, -, hmem, hactive⟩ := jwt_of_current_user hkey huser
    obtain ⟨registered, husers, hviewers⟩ := hkept.users
    rw [husers] at hmem
    rcases List.mem_append.mp hmem with hfirst | hregistered
    · exact ⟨hfirst, hactive, hrole⟩
    · rw [(hviewers user hregistered).1] at hrole
      cases hrole
  · obtain ⟨key, hmem, -, hactive, -, hservice⟩ := byKey_of_current_user hkey huser
    exact .inl ⟨key, hkept.keys ▸ hmem, hactive, hservice⟩

/-! ## A new account

The row does not keep the texts as they were sent where a column cuts blanks, so it is the name
in the row that signs in. -/

/-- A request that carries the token both ways, and no API key. -/
structure Carries (request : Request) (token : String) : Prop where
  authorization : request.authorization = some ("Bearer " ++ token)
  token : request.token = some token
  x_api_key : request.x_api_key = none

/-- The header is taken apart into its scheme and the token. The token is trimmed, which a
parameter stands for. -/
theorem oauth2_of_bearer (trim : String → String) (token : String) :
    oauth2_scheme trim (some ("Bearer " ++ token)) = some (trim token) := by
  have hlist : ("Bearer " ++ token).toList = "Bearer ".toList ++ token.toList := String.toList_append
  simp [oauth2_scheme, hlist, String.ofList_toList]

/-- An account that is there stays there. -/
theorem user_kept (hunmanaged : Unmanaged s a) (hs : s.step sec a = some t)
    (h : user ∈ s.db.users) : user ∈ t.db.users := by
  rcases step_db hs with hsame | rfl | ⟨user_in, id, salt, rfl, hinsert⟩
  · exact hsame ▸ h
  · exact hunmanaged.elim
  · obtain ⟨_, _, _, _, husers, _⟩ := insert_user_spec hinsert
    rw [husers]
    exact List.mem_append_left _ h

/-- The token of an active account is good for the account. -/
theorem authenticate_jwt_of_user {db : AuthTables} {jwt : String → Decoded} {token : String}
    (h : user ∈ db.users) (hactive : user.is_active = true)
    (hjwt : jwt token = .valid { sub := some user.username }) :
    authenticate_jwt db.toAuthDb jwt token = .ok user := by
  simp only [authenticate_jwt, hjwt, scalar_of_user h, bind, Except.bind, hactive, if_true]

/-- **A registered account signs in.** However others register, sign in and send requests
meanwhile: the password signs in under the name that the row keeps, which is the given one less
what blanks it has over the length of the column, and for as long as the settings say its token
is granted every endpoint that asks for no role, for the new account, and refused by all that
ask for an operator. -/
theorem registered_signs_in (hsec : sec.Lawful) {user_in : UserCreate} {id : Nat} {salt : String}
    {v w : Access} {tr' : List (Access × AccessAction)}
    (hinsert : insert_user sec s.db user_in id salt = .ok t.db)
    (hrun : Run (Access.step sec) t tr v) (hunmanaged : StepsMeet Unmanaged tr)
    (hrun' : Run (Access.step sec) v tr' w) (hunmanaged' : StepsMeet Unmanaged tr')
    (hnow : w.now ≤ v.now + 60 * sec.jwt_expiration_minutes) :
    ∃ claims user, login_for_access_token sec v.db v.now user.username user_in.password
        = .ok claims ∧
      varchar 50 user_in.username = some user.username ∧
      varchar 255 user_in.email = some user.email ∧
      ∀ endpoint request, Carries request (sec.encode claims) →
        w.grants sec endpoint request
          = if endpoint.minimum = none then .ok user else .error (role_required .operator) := by
  obtain ⟨hashed, user, hhash, hstored, husers, -⟩ := insert_user_spec hinsert
  obtain ⟨husername, hemail, hhashed, hactive, hrole, -⟩ := stored_user_spec hstored
  -- the hash is kept as it is
  have hkept : hashed = user.hashed_password :=
    Option.some.inj ((hsec.hash_length salt _ _ hhash).symm.trans hhashed)
  have hkeep : ∀ s a t, user ∈ s.db.users → Unmanaged s a → s.step sec a = some t →
      user ∈ t.db.users := fun _ _ _ h hC hs => user_kept hC hs h
  have hadded : user ∈ t.db.users := by
    rw [husers]
    exact List.mem_append_right _ (List.mem_singleton_self _)
  have hlogin : user ∈ v.db.users :=
    Run.invariant (I := fun s => user ∈ s.db.users) hkeep hadded hrun hunmanaged
  have hmem : user ∈ w.db.users :=
    Run.invariant (I := fun s => user ∈ s.db.users) hkeep hlogin hrun' hunmanaged'
  have hverify : sec.verify user_in.password user.hashed_password = some true :=
    hkept ▸ hsec.verify_hash salt _ _ hhash
  refine ⟨_, user, login_of_user hlogin hverify, husername, hemail,
    fun endpoint request hcarries => ?_⟩
  set claims := access_claims sec v.now user.username with hclaims
  have hjwt : sec.decode w.now (sec.encode claims) = .valid { sub := some user.username } :=
    hsec.decode_encode w.now claims hnow
  have hauth := authenticate_jwt_of_user hmem hactive hjwt
  have hcurrent : get_current_user w.db.toAuthDb sec.sha256 (sec.decode w.now) sec.trim w.now request
      = .ok user := by
    simp only [get_current_user, hcarries.x_api_key, hcarries.authorization, oauth2_of_bearer,
      hsec.trim_encode, if_neg (hsec.encode_ne claims)]
    exact hauth
  have hviewer : require_role .operator user = .error (role_required .operator) := by
    rw [require_role, hrole]
    rfl
  by_cases hws : endpoint = .websocket_event_stream
  · subst hws
    refine ws_authenticate_iff.mpr ?_
    rw [hcarries.token]
    exact ⟨hsec.encode_ne claims, hauth⟩
  · cases endpoint <;> first
      | exact absurd rfl hws
      | (simp only [Access.grants, authorize, hcurrent, bind, Except.bind, Endpoint.minimum,
          hviewer]; rfl)

end

/-! ## Two accounts -/

/-- A token that says its claims in the clear, with the time in strokes. -/
def clear_token (claims : Claims) : String :=
  String.ofList ((if 0 ≤ claims.exp then '+' else '-') ::
    (List.replicate claims.exp.natAbs '1' ++ '.' :: claims.sub.toList))

def read_token (now : Int) (token : String) : Decoded :=
  match token.toList with
  | [] => .invalid
  | sign :: rest =>
      let strokes : Int := (rest.takeWhile fun c => c ≠ '.').length
      let payload : Payload :=
        { sub := some (String.ofList ((rest.dropWhile fun c => c ≠ '.').drop 1)) }
      if now ≤ (if sign = '+' then strokes else -strokes) then .valid payload
      else .expired (some payload)

/-- Passwords, keys and tokens in the clear. -/
def clear : Security :=
  { sha256 := id,
    hash := fun _ password => if varchar 255 password = some password then some password else none,
    verify := fun password hashed => some (password = hashed),
    encode := clear_token,
    decode := read_token,
    trim := id,
    jwt_expiration_minutes := 1 }

/-- A token in the clear is read until it expires. -/
theorem read_clear_token (now : Int) (claims : Claims) (h : now ≤ claims.exp) :
    read_token now (clear_token claims) = .valid { sub := some claims.sub } := by
  have hstroke : '.' ∉ List.replicate claims.exp.natAbs '1' := by
    simp [List.mem_replicate]
  have hexp : (if (if 0 ≤ claims.exp then '+' else '-') = '+' then (claims.exp.natAbs : Int)
      else -claims.exp.natAbs) = claims.exp := by
    by_cases hpos : 0 ≤ claims.exp
    · rw [if_pos hpos, if_pos rfl]
      omega
    · rw [if_neg hpos, if_neg (by decide)]
      omega
  simp only [read_token, clear_token, String.toList_ofList, takeWhile_until _ hstroke,
    dropWhile_until _ hstroke, List.length_replicate, List.drop_one, List.tail_cons,
    String.ofList_toList, hexp, if_pos h]

/-- The sample libraries do what the real ones are documented to do. -/
theorem clear_lawful : clear.Lawful where
  verify_hash := fun _ password hashed h => by
    obtain ⟨-, heq⟩ := Option.ite_none_right_eq_some.mp h
    obtain rfl := Option.some.inj heq
    simp [clear]
  hash_length := fun _ password hashed h => by
    obtain ⟨hfits, heq⟩ := Option.ite_none_right_eq_some.mp h
    obtain rfl := Option.some.inj heq
    exact hfits
  decode_encode := read_clear_token
  encode_ne := fun claims h => by
    have hlist := congrArg String.toList h
    simp [clear, clear_token] at hlist
  trim_encode := fun _ => rfl

/-- An operator, and the key of a service. -/
def staffed : AuthTables :=
  { users := [{ new_user ⟨"alice", "alice@example.com", "pw"⟩ 1 "pw" with role := .operator }],
    api_keys := [],
    aware := true,
    ids := List.nodup_singleton _,
    usernames := List.nodup_singleton _,
    emails := List.nodup_singleton _,
    key_hashes := List.nodup_nil }

def bearer (token : String) : Request :=
  { method := "POST",
    path := "/api/v1/jobs",
    client_host := none,
    authorization := some ("Bearer " ++ token),
    token := some token,
    x_api_key := none }

/-- Alice signs in. -/
def alice_actions : List AccessAction := [.tick 5, .token "alice" "pw", .tick 10]

def create_request : Request := bearer (clear_token ⟨"alice", 65⟩)

/-- Her token is the only one that the request presents. -/
theorem unforged_alice {s : Access} (hnow : s.now = 15) (hissued : s.issued = [⟨"alice", 65⟩]) :
    Unforged clear s (.request .create_job create_request) := by
  intro token payload hpresents hvalid
  have htoken : token = clear_token ⟨"alice", 65⟩ := by
    rcases hpresents with h | h
    · rw [create_request, bearer, oauth2_of_bearer] at h
      exact (Option.some.inj h).symm
    · exact (Option.some.inj h).symm
  rw [htoken, hnow] at hvalid
  obtain rfl : { sub := some "alice" } = payload :=
    Decoded.valid.inj ((read_clear_token 15 ⟨"alice", 65⟩ (by decide)).symm.trans hvalid)
  exact ⟨⟨"alice", 65⟩, by rw [hissued]; exact List.mem_singleton_self _, rfl, by rw [hnow]; decide⟩

/-- She creates a job, and has signed in before it. -/
theorem job_change_authenticated_alice :
    ∃ tr t s older user, Run (Access.step clear) (Access.initial staffed 0) tr t ∧
      (s, .request .create_job create_request) :: older <:+ tr ∧
      s.grants clear .create_job create_request = .ok user ∧ user.username = "alice" ∧
      (ByKey clear s create_request user ∨
        user ∈ s.db.users ∧ user.is_active = true ∧ role_at_least user.role .operator = true ∧
          SignedIn clear older user.username s.now) := by
  obtain ⟨s, hs, hnow, hissued, hdb⟩ : ∃ s,
      exec (Access.step clear) (Access.initial staffed 0) alice_actions = some s ∧ s.now = 15 ∧
      s.issued = [⟨"alice", 65⟩] ∧ s.db = staffed := ⟨_, rfl, by decide, by decide, rfl⟩
  obtain ⟨user, hgrants, hname⟩ : ∃ user,
      s.grants clear .create_job create_request = .ok user ∧ user.username = "alice" := by
    rw [Access.grants, hnow, hdb]
    exact ⟨_, rfl, rfl⟩
  have hrun : Run (Access.step clear) (Access.initial staffed 0)
      ((s, .request .create_job create_request) :: trace (Access.step clear)
        (Access.initial staffed 0) alice_actions) s := Run.cons (run_trace hs) rfl
  refine ⟨_, s, s, _, user, hrun, List.suffix_refl _, hgrants, hname,
    job_change_authenticated hrun ?_ (List.suffix_refl _) rfl hgrants⟩
  rw [stepsMeet_cons]
  have hothers : ∀ a ∈ alice_actions, ∀ s, Unforged clear s a := by
    simp [alice_actions, Unforged]
  exact ⟨unforged_alice hnow hissued, fun p hp => hothers _ (mem_of_mem_trace hp) p.1⟩

/-- She was an operator at the start. -/
theorem only_first_operators_alice :
    ∃ tr t s user, Run (Access.step clear) (Access.initial staffed 0) tr t ∧
      (s, .request .create_job create_request) ∈ tr ∧
      s.grants clear .create_job create_request = .ok user ∧
      ((∃ key ∈ staffed.api_keys, key.is_active = true ∧ user = service_user key) ∨
        user ∈ staffed.users ∧ user.is_active = true ∧
          role_at_least user.role .operator = true) := by
  obtain ⟨s, hs, hnow, hdb⟩ : ∃ s,
      exec (Access.step clear) (Access.initial staffed 0) alice_actions = some s ∧ s.now = 15 ∧
      s.db = staffed := ⟨_, rfl, by decide, rfl⟩
  obtain ⟨user, hgrants⟩ : ∃ user, s.grants clear .create_job create_request = .ok user := by
    rw [Access.grants, hnow, hdb]
    exact ⟨_, rfl⟩
  have hrun : Run (Access.step clear) (Access.initial staffed 0)
      ((s, .request .create_job create_request) :: trace (Access.step clear)
        (Access.initial staffed 0) alice_actions) s := Run.cons (run_trace hs) rfl
  refine ⟨_, s, s, user, hrun, List.mem_cons_self .., hgrants,
    only_first_operators hrun ?_ (List.mem_cons_self ..) rfl hgrants⟩
  rw [stepsMeet_cons]
  have hothers : ∀ a ∈ alice_actions, ∀ s, Unmanaged s a := by simp [alice_actions, Unmanaged]
  exact ⟨trivial, fun p hp => hothers _ (mem_of_mem_trace hp) p.1⟩

/-- Bob registers, and three seconds later signs in. -/
def bob : UserCreate := ⟨"bob", "bob@example.com", "secret"⟩

/-- He asks half a minute after he signed in, and is refused where a role is asked for. -/
theorem registered_signs_in_bob :
    ∃ (v w : Access) (claims : Claims) (user : User), v.now = 3 ∧ w.now = 33 ∧
      login_for_access_token clear v.db v.now "bob" "secret" = .ok claims ∧
      user.username = "bob" ∧
      ∀ endpoint, w.grants clear endpoint (bearer (clear_token claims))
        = if endpoint.minimum = none then .ok user else .error (role_required .operator) := by
  obtain ⟨s, t, v, w, hinsert, hv, hw, hvnow, hwnow⟩ : ∃ s t v w,
      insert_user clear (Access.db s) bob 2 "salt" = .ok (Access.db t) ∧
      exec (Access.step clear) t [.tick 3] = some v ∧ exec (Access.step clear) v [.tick 30] = some w ∧
      v.now = 3 ∧ w.now = 33 :=
    ⟨Access.initial staffed 0,
      Access.initial (staffed.add (new_user bob 2 "secret") (by decide)) 0, _, _, rfl, rfl, rfl,
      by decide, by decide⟩
  have htick : ∀ n, ∀ a ∈ [AccessAction.tick n], ∀ s, Unmanaged s a := by simp [Unmanaged]
  obtain ⟨claims, user, hlogin, hname, -, hgrants⟩ := registered_signs_in clear_lawful hinsert
    (run_trace hv) (fun p hp => htick 3 _ (mem_of_mem_trace hp) p.1) (run_trace hw)
    (fun p hp => htick 30 _ (mem_of_mem_trace hp) p.1) (by rw [hvnow, hwnow]; decide)
  have hbob : varchar 50 "bob" = some "bob" := by decide
  have huser : user.username = "bob" := (Option.some.inj (hbob.symm.trans hname)).symm
  rw [huser] at hlogin
  exact ⟨v, w, claims, user, hvnow, hwnow, hlogin, huser,
    fun endpoint => hgrants endpoint _ ⟨rfl, rfl, rfl⟩⟩

end WalStream.Control
