/-
Signing in to the web frontend.

Whether somebody is signed in is written down three times: in a cookie, which the middleware of
the server looks at before it serves a page; in the store of each tab, which the pages look at;
and in `localStorage`, from which a tab fills its store when it is loaded and the API client
takes the token of a request. A page shows something where cookie and store agree, and sends
the visitor on where they do not. Login, logout and a 401 response change all three together,
but the cookie runs out after seven days and the store does not.

The router goes through the middleware on every navigation. The parameter `redirect` of the
login page is read by nobody and left out, and so is what a page shows for the moment until its
store is filled.
-/
import WalStream.Lib.Run
import Mathlib.Logic.Function.Iterate

set_option autoImplicit false

namespace WalStream.Frontend.Session

open Lib

/-! ## The middleware

It sees the cookie and the path, and redirects once at most: the place that it sends a visitor
to is one that it lets him have. -/

/-- A token of the API. None is the empty text. -/
structure Token where
  text : String
  nonempty : text ≠ ""
deriving DecidableEq

def protectedRoutes : List String := ["/", "/jobs", "/events", "/metrics"]

def authRoutes : List String := ["/login"]

def isProtectedRoute (pathname : String) : Bool :=
  protectedRoutes.any fun route =>
    pathname = route || (route ++ "/").toList.isPrefixOf pathname.toList

def isAuthRoute (pathname : String) : Bool := authRoutes.any fun route => pathname = route

inductive NextResponse
  | redirect (pathname : String)
  | next
deriving DecidableEq

/-- `middleware`, on the cookie of the request. -/
def middleware (token : Option Token) (pathname : String) : NextResponse :=
  let isAuthenticated := token.isSome
  if isProtectedRoute pathname && !isAuthenticated then .redirect "/login"
  else if isAuthRoute pathname && isAuthenticated then .redirect "/"
  else .next

/-- Where a navigation to `pathname` arrives. -/
def arrive (token : Option Token) (pathname : String) : String :=
  match middleware token pathname with
  | .redirect pathname => pathname
  | .next => pathname

/-! ## The pages

Three kinds are told apart: the login page, the pages of the dashboard, which `AuthGuard` wraps,
and all others. -/

/-- What a path is served by. -/
inductive Page
  | login
  /-- A page below `AuthGuard`. -/
  | dashboard
  /-- Such as the page that says that there is none. -/
  | other
deriving DecidableEq

/-- `/jobs/[id]` -/
def isJobPage (pathname : String) : Bool :=
  let id := pathname.toList.drop 6
  "/jobs/".toList.isPrefixOf pathname.toList && !id.isEmpty && !id.contains '/'

def page (pathname : String) : Page :=
  if pathname = "/login" then .login
  else if pathname ∈ ["/", "/jobs", "/events", "/metrics"] || isJobPage pathname then .dashboard
  else .other

/-! ## The stores

Cookie, `localStorage` and the stores of the tabs. A tab fills its store when it is loaded, and
does not notice what another tab does afterwards. -/

variable {User : Type}

/-- `AuthState`. -/
structure AuthState (User : Type) where
  token : Option Token
  user : Option User
  isAuthenticated : Bool
deriving DecidableEq

def AuthState.initial : AuthState User := { token := none, user := none, isAuthenticated := false }

/-- The cookie, with the second at which it runs out. -/
structure Cookie where
  token : Token
  expires : Nat
deriving DecidableEq

/-- `max-age` -/
def MAX_AGE : Nat := 7 * 24 * 60 * 60

/-- A tab: its store, the page it is on, and whether that shows anything. -/
structure Tab (User : Type) where
  memory : AuthState User
  pathname : String
  shown : Bool
  /-- Requests may be under way, since the page was loaded. -/
  asking : Bool
  /-- A sign-in that has got its token and asked for its user. -/
  signing : Option (Token × User)

structure Browser (User : Type) where
  clock : Nat
  cookie : Option Cookie
  /-- `localStorage` -/
  stored : Option (AuthState User)
  tabs : Nat → Option (Tab User)

def Browser.initial : Browser User :=
  { clock := 0, cookie := none, stored := none, tabs := fun _ => none }

/-- The token in the cookie of a request. -/
def Browser.token (b : Browser User) : Option Token :=
  b.cookie.bind fun c => if b.clock < c.expires then some c.token else none

/-- The store of a tab that is loaded. -/
def Browser.hydrated (b : Browser User) : AuthState User := b.stored.getD .initial

def Browser.set_tab (b : Browser User) (i : Nat) (tab : Option (Tab User)) : Browser User :=
  { b with tabs := Function.update b.tabs i tab }

/-- The tab after a full load of a page. -/
def Browser.load (b : Browser User) (pathname : String) : Tab User :=
  { memory := b.hydrated,
    pathname := arrive b.token pathname,
    shown := false,
    asking := false,
    signing := none }

/-- The tab after `router.push` or `router.replace`. -/
def Tab.goTo (tab : Tab User) (token : Option Token) (pathname : String) : Tab User :=
  { tab with pathname := arrive token pathname, shown := false }

/-- What the page does once it is there, or its store has changed: `LoginForm` and `AuthGuard`
send an unfit visitor on. -/
def Tab.render (token : Option Token) (tab : Tab User) : Tab User :=
  match page tab.pathname with
  | .login =>
      if tab.memory.isAuthenticated then tab.goTo token "/"
      else { tab with shown := true, asking := true }
  | .dashboard =>
      if !tab.memory.isAuthenticated || tab.memory.token.isNone then tab.goTo token "/login"
      else { tab with shown := true, asking := true }
  | .other => { tab with shown := true }

/-! ## The system

Any number of tabs, each a state of its own; they meet in the cookie and in `localStorage`. A
page renders again whenever something that it looks at may have changed. -/

inductive Action
  | tick (seconds : Nat)
  /-- A tab is opened or reloaded, or an address is typed. -/
  | load (i : Nat) (pathname : String)
  | render (i : Nat)
  /-- A link is followed. -/
  | navigate (i : Nat) (pathname : String)
  /-- The login form is submitted and answered with a token; `/auth/me` is asked. -/
  | ask_user (i : Nat) (access_token : Token)
  /-- The user is there, and `login` of the store is called. -/
  | login (i : Nat)
  | logout (i : Nat)
  /-- A request is answered with 401. -/
  | unauthorized (i : Nat)
  /-- What is under way is answered otherwise, or fails; a sign-in fails with it. -/
  | settle (i : Nat)
  | close (i : Nat)

/-- The token of a request: the stored one goes over the one that is passed. -/
def Browser.carried (b : Browser User) (access_token : Token) : Token :=
  (b.stored.bind AuthState.token).getD access_token

/-- `login` of the store, and `router.push('/')`. -/
def Browser.login (b : Browser User) (i : Nat) (tab : Tab User) (token : Token) (user : User) :
    Browser User :=
  let state : AuthState User := { token := some token, user := some user, isAuthenticated := true }
  let tab := { tab with memory := state, signing := none }
  { b with
    cookie := some { token := token, expires := b.clock + MAX_AGE },
    stored := some state,
    tabs := Function.update b.tabs i (some (tab.goTo (some token) "/")) }

/-- `logout` of the store. -/
def Browser.logout (b : Browser User) (i : Nat) (tab : Tab User) : Browser User :=
  { b with
    cookie := none,
    stored := some .initial,
    tabs := Function.update b.tabs i (some { tab with memory := .initial }) }

/-- The handler of a 401 response clears both, and loads the login page. -/
def Browser.unauthorized (b : Browser User) (i : Nat) : Browser User :=
  let b := { b with cookie := none, stored := none }
  b.set_tab i (some (b.load "/login"))

/-- The steps; `owner` is whom `/auth/me` names for a token. -/
def step (owner : Token → User) (b : Browser User) : Action → Option (Browser User)
  | .tick seconds => some { b with clock := b.clock + seconds }
  | .load i pathname => some (b.set_tab i (some (b.load pathname)))
  | .render i => (b.tabs i).map fun tab => b.set_tab i (some (tab.render b.token))
  | .navigate i pathname =>
      (b.tabs i).bind fun tab =>
        if tab.shown then some (b.set_tab i (some (tab.goTo b.token pathname))) else none
  | .ask_user i access_token =>
      (b.tabs i).bind fun tab =>
        if tab.shown && page tab.pathname = .login then
          some (b.set_tab i (some { tab with
            signing := some (access_token, owner (b.carried access_token)) }))
        else none
  | .login i =>
      (b.tabs i).bind fun tab => tab.signing.map fun (token, user) => b.login i tab token user
  | .logout i =>
      (b.tabs i).bind fun tab =>
        if tab.shown && page tab.pathname = .dashboard then some (b.logout i tab) else none
  | .unauthorized i =>
      (b.tabs i).bind fun tab => if tab.asking then some (b.unauthorized i) else none
  | .settle i =>
      (b.tabs i).map fun tab => b.set_tab i (some { tab with asking := false, signing := none })
  | .close i => some (b.set_tab i none)

/-- `Took owner b a b'`: the step `a` out of `b`, with its guard, and the state after it. -/
inductive Took (owner : Token → User) (b : Browser User) : Action → Browser User → Prop
  | tick (seconds : Nat) : Took owner b (.tick seconds) { b with clock := b.clock + seconds }
  | load (i : Nat) (pathname : String) :
      Took owner b (.load i pathname) (b.set_tab i (some (b.load pathname)))
  | render (i : Nat) (tab : Tab User) (htab : b.tabs i = some tab) :
      Took owner b (.render i) (b.set_tab i (some (tab.render b.token)))
  | navigate (i : Nat) (pathname : String) (tab : Tab User) (htab : b.tabs i = some tab) :
      Took owner b (.navigate i pathname) (b.set_tab i (some (tab.goTo b.token pathname)))
  | ask_user (i : Nat) (access_token : Token) (tab : Tab User) (htab : b.tabs i = some tab)
      (hshown : tab.shown = true) (hpage : page tab.pathname = .login) :
      Took owner b (.ask_user i access_token) (b.set_tab i (some { tab with
        signing := some (access_token, owner (b.carried access_token)) }))
  | login (i : Nat) (tab : Tab User) (token : Token) (user : User) (htab : b.tabs i = some tab)
      (hsigning : tab.signing = some (token, user)) :
      Took owner b (.login i) (b.login i tab token user)
  | logout (i : Nat) (tab : Tab User) (htab : b.tabs i = some tab) (hshown : tab.shown = true)
      (hpage : page tab.pathname = .dashboard) : Took owner b (.logout i) (b.logout i tab)
  | unauthorized (i : Nat) (tab : Tab User) (htab : b.tabs i = some tab)
      (hasking : tab.asking = true) : Took owner b (.unauthorized i) (b.unauthorized i)
  | settle (i : Nat) (tab : Tab User) (htab : b.tabs i = some tab) :
      Took owner b (.settle i)
        (b.set_tab i (some { tab with asking := false, signing := none }))
  | close (i : Nat) : Took owner b (.close i) (b.set_tab i none)

section

variable {owner : Token → User} {b b' : Browser User} {a : Action} {tr : List (Browser User × Action)}

/-- **The inversion of `step`.** -/
theorem step_took (h : step owner b a = some b') : Took owner b a b' := by
  cases a with
  | tick seconds => cases h; exact .tick seconds
  | load i pathname => cases h; exact .load i pathname
  | render i =>
      obtain ⟨tab, htab, rfl⟩ := Option.map_eq_some_iff.mp h
      exact .render i tab htab
  | navigate i pathname =>
      obtain ⟨tab, htab, h⟩ := Option.bind_eq_some_iff.mp h
      split at h <;> cases h
      exact .navigate i pathname tab htab
  | ask_user i access_token =>
      obtain ⟨tab, htab, h⟩ := Option.bind_eq_some_iff.mp h
      split at h <;> cases h
      rename_i hform
      rw [Bool.and_eq_true, decide_eq_true_eq] at hform
      exact .ask_user i access_token tab htab hform.1 hform.2
  | login i =>
      obtain ⟨tab, htab, h⟩ := Option.bind_eq_some_iff.mp h
      obtain ⟨⟨token, user⟩, hsigning, rfl⟩ := Option.map_eq_some_iff.mp h
      exact .login i tab token user htab hsigning
  | logout i =>
      obtain ⟨tab, htab, h⟩ := Option.bind_eq_some_iff.mp h
      split at h <;> cases h
      rename_i hshown
      rw [Bool.and_eq_true, decide_eq_true_eq] at hshown
      exact .logout i tab htab hshown.1 hshown.2
  | unauthorized i =>
      obtain ⟨tab, htab, h⟩ := Option.bind_eq_some_iff.mp h
      split at h <;> cases h
      rename_i hasking
      exact .unauthorized i tab htab hasking
  | settle i =>
      obtain ⟨tab, htab, rfl⟩ := Option.map_eq_some_iff.mp h
      exact .settle i tab htab
  | close i => cases h; exact .close i

theorem set_tab_self (b : Browser User) (i : Nat) (o : Option (Tab User)) :
    (b.set_tab i o).tabs i = o :=
  Function.update_self ..

/-- What holds of every tab holds after one was set, if it holds of that one. -/
theorem tabs_set_tab {Q : Tab User → Prop} (h : ∀ i tab, b.tabs i = some tab → Q tab) {i : Nat}
    {o : Option (Tab User)} (ho : ∀ tab, o = some tab → Q tab) :
    ∀ j tab, (b.set_tab i o).tabs j = some tab → Q tab := by
  intro j tab htab
  by_cases hj : j = i
  · subst hj
    simp only [Browser.set_tab, Function.update_self] at htab
    exact ho tab htab
  · simp only [Browser.set_tab, Function.update_of_ne hj] at htab
    exact h j tab htab

@[simp] theorem Tab.render_memory (token : Option Token) (tab : Tab User) :
    (tab.render token).memory = tab.memory := by
  unfold Tab.render Tab.goTo
  split
  · split <;> rfl
  · split <;> rfl
  · rfl

@[simp] theorem Tab.render_signing (token : Option Token) (tab : Tab User) :
    (tab.render token).signing = tab.signing := by
  unfold Tab.render Tab.goTo
  split
  · split <;> rfl
  · split <;> rfl
  · rfl

/-! ## Where a navigation arrives

Without a cookie every way to a dashboard ends at the login page, and with one every way to the
login page ends at a dashboard, after one redirect. -/

theorem page_eq_login_iff {pathname : String} : page pathname = .login ↔ pathname = "/login" := by
  unfold page
  split
  · rename_i h
    exact iff_of_true rfl h
  · rename_i h
    refine iff_of_false ?_ h
    split <;> rintro ⟨⟩

/-- Every page below `AuthGuard` is protected by the middleware. -/
theorem protected_of_dashboard {pathname : String} (h : page pathname = .dashboard) :
    isProtectedRoute pathname = true := by
  unfold page at h
  split at h
  · cases h
  · split at h
    · rename_i hroute
      simp only [Bool.or_eq_true, decide_eq_true_eq, List.mem_cons, List.not_mem_nil,
        or_false] at hroute
      rcases hroute with (rfl | rfl | rfl | rfl) | hjob
      · decide +kernel
      · decide +kernel
      · decide +kernel
      · decide +kernel
      · simp only [isJobPage, Bool.and_eq_true] at hjob
        simp only [isProtectedRoute, List.any_eq_true, protectedRoutes]
        exact ⟨"/jobs", by simp, by rw [Bool.or_eq_true]; exact Or.inr hjob.1.1⟩
    · cases h

theorem not_auth_of_dashboard {pathname : String} (h : page pathname = .dashboard) :
    isAuthRoute pathname = false := by
  have hne : pathname ≠ "/login" := by
    rintro rfl
    cases h
  simp [isAuthRoute, authRoutes, hne]

/-- Without a cookie, no navigation arrives at a dashboard. -/
theorem arrive_none {pathname : String} : page (arrive none pathname) ≠ .dashboard := by
  intro h
  unfold arrive middleware at h
  by_cases hprotected : isProtectedRoute pathname = true
  · simp [hprotected] at h
    revert h
    decide +kernel
  · simp [hprotected] at h
    exact hprotected (protected_of_dashboard h)

/-- Without a cookie, it arrives at the login page. -/
theorem arrive_none_eq {pathname : String} (h : page pathname ≠ .other) :
    arrive none pathname = "/login" := by
  cases hpage : page pathname with
  | login =>
      rw [page_eq_login_iff.mp hpage]
      decide +kernel
  | dashboard => simp [arrive, middleware, protected_of_dashboard hpage]
  | other => exact absurd hpage h

/-- With one, it arrives at a dashboard. -/
theorem arrive_some {pathname : String} (h : page pathname ≠ .other) (token : Token) :
    page (arrive (some token) pathname) = .dashboard := by
  cases hpage : page pathname with
  | login =>
      have hprotected : isProtectedRoute "/login" = false := by decide +kernel
      have hauth : isAuthRoute "/login" = true := by decide +kernel
      have harrive : arrive (some token) "/login" = "/" := by
        simp [arrive, middleware, hprotected, hauth]
      rw [page_eq_login_iff.mp hpage, harrive]
      decide +kernel
  | dashboard => simp [arrive, middleware, not_auth_of_dashboard hpage, hpage]
  | other => exact absurd hpage h

/-- **One redirect is enough**: where the middleware sends a visitor, it lets him in. -/
theorem middleware_arrive (token : Option Token) (pathname : String) :
    middleware token (arrive token pathname) = .next := by
  have hlogin : isProtectedRoute "/login" = false := by decide +kernel
  have hhome : isAuthRoute "/" = false := by decide +kernel
  unfold arrive
  cases hresponse : middleware token pathname with
  | next => exact hresponse
  | redirect target =>
      simp only [middleware] at hresponse
      split at hresponse
      · rename_i h
        cases hresponse
        simp only [Bool.and_eq_true, Bool.not_eq_true'] at h
        simp [middleware, hlogin, h.2]
      · split at hresponse
        · rename_i h
          cases hresponse
          rw [Bool.and_eq_true] at h
          simp [middleware, hhome, h.2]
        · cases hresponse

/-! ## Cookie and store

What the two say of each other, along a run: whatever is put into one is put into the other,
until the cookie runs out. -/

/-- Every store satisfies `P`: those of the tabs, and the one in `localStorage`. -/
structure Stores (P : AuthState User → Prop) (b : Browser User) : Prop where
  hydrated : P b.hydrated
  memory : ∀ i tab, b.tabs i = some tab → P tab.memory

theorem Stores.set_tab {P : AuthState User → Prop} (h : Stores P b) {i : Nat}
    {o : Option (Tab User)} (ho : ∀ tab, o = some tab → P tab.memory) : Stores P (b.set_tab i o) :=
  ⟨h.hydrated, tabs_set_tab h.memory ho⟩

/-- Stores are copied from one another, cleared, or written by a login. -/
theorem Stores.step {P : AuthState User → Prop} (h : Stores P b)
    (hs : Session.step owner b a = some b') (hinitial : P .initial)
    (hlogin : ∀ i tab token user, b.tabs i = some tab → tab.signing = some (token, user) →
      P { token := some token, user := some user, isAuthenticated := true }) : Stores P b' := by
  cases step_took hs with
  | tick seconds => exact ⟨h.hydrated, h.memory⟩
  -- a tab takes its store from the persisted one
  | load i pathname =>
      refine h.set_tab ?_
      rintro _ ⟨⟩
      exact h.hydrated
  | render i tab htab =>
      refine h.set_tab ?_
      rintro _ ⟨⟩
      rw [Tab.render_memory]
      exact h.memory i tab htab
  | navigate i pathname tab htab =>
      refine h.set_tab ?_
      rintro _ ⟨⟩
      exact h.memory i tab htab
  | ask_user i access_token tab htab hshown hpage =>
      refine h.set_tab ?_
      rintro _ ⟨⟩
      exact h.memory i tab htab
  -- the sign-in writes both, and so do the two ways out
  | login i tab token user htab hsigning =>
      have hnew := hlogin i tab token user htab hsigning
      refine ⟨hnew, tabs_set_tab h.memory ?_⟩
      rintro _ ⟨⟩
      exact hnew
  | logout i tab htab hshown hpage =>
      refine ⟨hinitial, tabs_set_tab h.memory ?_⟩
      rintro _ ⟨⟩
      exact hinitial
  | unauthorized i tab htab hasking =>
      refine ⟨hinitial, tabs_set_tab h.memory ?_⟩
      rintro _ ⟨⟩
      exact hinitial
  | settle i tab htab =>
      refine h.set_tab ?_
      rintro _ ⟨⟩
      exact h.memory i tab htab
  | close i =>
      refine h.set_tab ?_
      rintro _ ⟨⟩

/-- Cookie and `localStorage` are set and cleared together, and a store holds a token when it
says that somebody is signed in. -/
structure Agrees (b : Browser User) : Prop where
  cookie : b.cookie.isSome = b.hydrated.isAuthenticated
  stores : Stores (fun state => state.token.isSome = state.isAuthenticated) b

theorem Agrees.step (h : Agrees b) (hs : Session.step owner b a = some b') : Agrees b' := by
  refine ⟨?_, h.stores.step hs rfl fun _ _ _ _ _ _ => rfl⟩
  cases step_took hs with
  | login i tab token user htab hsigning => rfl
  | logout i tab htab hshown hpage => rfl
  | unauthorized i tab htab hasking => rfl
  | _ => exact h.cookie

theorem agrees_initial : Agrees (Browser.initial : Browser User) where
  cookie := rfl
  stores := ⟨rfl, by rintro _ _ ⟨⟩⟩

theorem agrees_of_run (hrun : Run (Session.step owner) .initial tr b) : Agrees b :=
  hrun.invariant (C := fun _ _ => True) (fun _ _ _ h _ hs => h.step hs) agrees_initial
    fun _ _ => trivial

/-- The cookie has run out. -/
def Browser.Expired (b : Browser User) : Prop := ∃ c, b.cookie = some c ∧ c.expires ≤ b.clock

theorem token_eq_none_of_expired (h : b.Expired) : b.token = none := by
  obtain ⟨c, hc, hle⟩ := h
  simp [Browser.token, hc, Nat.not_lt.mpr hle]

theorem Agrees.hydrated_of_expired (h : Agrees b) (hexpired : b.Expired) :
    b.hydrated.isAuthenticated = true := by
  obtain ⟨c, hc, -⟩ := hexpired
  rw [← h.cookie, hc]
  rfl

/-- A tab that is loaded while the cookie has run out stands still on the login page. -/
theorem render_load_of_expired (hagrees : Agrees b) (hexpired : b.Expired) {pathname : String}
    (hpage : page pathname ≠ .other) :
    (b.load pathname).shown = false ∧ (b.load pathname).render b.token = b.load pathname := by
  have htoken := token_eq_none_of_expired hexpired
  have hauth := hagrees.hydrated_of_expired hexpired
  have hhome : arrive none "/" = "/login" := arrive_none_eq (by decide +kernel)
  refine ⟨rfl, ?_⟩
  simp only [Tab.render, Browser.load, htoken, arrive_none_eq hpage, page_eq_login_iff.mpr rfl,
    hauth, if_true, Tab.goTo, hhome]

/-- One that is loaded otherwise shows what the visitor is to see. -/
theorem render_load_of_valid (hagrees : Agrees b) (hvalid : ¬ b.Expired) {pathname : String}
    (hpage : page pathname ≠ .other) :
    ((b.load pathname).render b.token).shown = true ∧
      page ((b.load pathname).render b.token).pathname
        = if b.hydrated.isAuthenticated then .dashboard else .login := by
  cases hcookie : b.cookie with
  | none =>
      have htoken : b.token = none := by rw [Browser.token, hcookie]; rfl
      have hauth : b.hydrated.isAuthenticated = false := by rw [← hagrees.cookie, hcookie]; rfl
      have harrive : arrive b.token pathname = "/login" := by rw [htoken, arrive_none_eq hpage]
      simp [Tab.render, Browser.load, harrive, page_eq_login_iff.mpr rfl, hauth]
  | some c =>
      have hlive : b.clock < c.expires := by
        by_contra hnot
        exact hvalid ⟨c, hcookie, Nat.not_lt.mp hnot⟩
      have htoken : b.token = some c.token := by simp [Browser.token, hcookie, hlive]
      have hauth : b.hydrated.isAuthenticated = true := by rw [← hagrees.cookie, hcookie]; rfl
      have harrive : page (arrive b.token pathname) = .dashboard := by
        rw [htoken, arrive_some hpage]
      have hstored := hagrees.stores.hydrated
      rw [hauth] at hstored
      simp [Tab.render, Browser.load, harrive, hauth, Option.isNone_eq_false_iff.mpr hstored]

/-- **When the frontend lets a visitor in.** In every state that any number of tabs can reach,
a tab that is opened or reloaded on the login page or on a page of the dashboard comes to show
a page unless the cookie of the last login has run out: the dashboard to one who is signed in
and the login form to one who is not. The middleware redirects it once at most, since it lets
it in where it has sent it. With the cookie run out it never shows any, however often it is
sent on. -/
theorem fresh_tab_shows_iff (hrun : Run (Session.step owner) .initial tr b) {pathname : String}
    (hpage : page pathname ≠ .other) :
    middleware b.token (b.load pathname).pathname = .next ∧
      ((∃ n, ((Tab.render b.token)^[n] (b.load pathname)).shown = true) ↔ ¬ b.Expired) ∧
      (¬ b.Expired → ((b.load pathname).render b.token).shown = true ∧
        page ((b.load pathname).render b.token).pathname
          = if b.hydrated.isAuthenticated then .dashboard else .login) := by
  have hagrees := agrees_of_run hrun
  have hshows := fun hvalid : ¬ b.Expired => render_load_of_valid hagrees hvalid hpage
  refine ⟨middleware_arrive b.token pathname, ⟨?_, fun hvalid => ⟨1, (hshows hvalid).1⟩⟩, hshows⟩
  rintro ⟨n, hn⟩ hexpired
  obtain ⟨hhidden, hfixed⟩ := render_load_of_expired hagrees hexpired hpage
  rw [Function.iterate_fixed hfixed, hhidden] at hn
  cases hn

end

/-- Alice signs in, in the tab `0`. -/
def signing_in (token : Token) : List Action :=
  [.load 0 "/login", .render 0, .ask_user 0 token, .login 0]

def alice : Token := { text := "alice", nonempty := by decide }

/-- A week later the jobs page shows nothing, in a new tab. -/
theorem fresh_tab_shows_week :
    page "/jobs" ≠ .other ∧
      ∃ tr b, Run (step Token.text) .initial tr b ∧
        ∀ n, ((Tab.render b.token)^[n] (b.load "/jobs")).shown = false := by
  have hpage : page "/jobs" ≠ .other := by decide +kernel
  obtain ⟨tr, b, hrun, hcookie, hclock⟩ :
      ∃ tr b, Run (step Token.text) .initial tr b ∧ b.cookie = some ⟨alice, MAX_AGE⟩ ∧
        b.clock = MAX_AGE :=
    exists_run_of_exec (signing_in alice ++ [.tick MAX_AGE]) (by decide +kernel)
  refine ⟨hpage, tr, b, hrun, fun n => ?_⟩
  by_contra hshown
  rw [Bool.not_eq_false] at hshown
  exact (fresh_tab_shows_iff hrun hpage).2.1.mp ⟨n, hshown⟩ ⟨_, hcookie, Nat.le_of_eq hclock.symm⟩

end WalStream.Frontend.Session
