/-
Visitors who cannot sign in any more.

The cookie runs out after seven days, and nothing takes the store with it. From then on the
middleware sends every page of the dashboard to the login page, and the login page, by its store,
sends the visitor back to the dashboard. A 401 response would clear the store, but only a page
that is shown asks the API for anything. `Tab.Locked` says of a tab that it has no way out. By
`recovers_iff` a visitor is locked out for good exactly when the cookie has run out and none of
the open tabs has one.
-/
import WalStream.Frontend.Session

set_option autoImplicit false

namespace WalStream.Frontend.Session

open Lib

variable {User : Type}

/-! ## Who is locked out

Both directions are short runs. A locked tab has no way out, by cases on what a tab can do; and
for every tab that is not locked a way is given, by where it is and what it knows. -/

/-- Some tab shows the login form or a page of the dashboard. -/
def Browser.Shows (b : Browser User) : Prop :=
  ∃ i tab, b.tabs i = some tab ∧ tab.shown = true ∧ page tab.pathname ≠ .other

/-- A tab that takes the visitor for signed in, on a page that shows him nothing, with no
request under way that could change that. -/
structure Tab.Locked (tab : Tab User) : Prop where
  memory : tab.memory.isAuthenticated = true
  asking : tab.asking = false
  signing : tab.signing = none
  place : page tab.pathname ≠ .dashboard
  shown : tab.shown = true → page tab.pathname = .other

/-- The cookie has run out, and every tab that is open is locked. -/
structure Browser.Locked (b : Browser User) : Prop where
  expired : b.Expired
  tabs : ∀ i tab, b.tabs i = some tab → tab.Locked

/-- A later run leads to a state in which a tab shows something. -/
def Browser.Recovers (owner : Token → User) (b : Browser User) : Prop :=
  ∃ tr b', Run (step owner) b tr b' ∧ b'.Shows

section

variable {owner : Token → User} {b b' : Browser User} {a : Action} {tr : List (Browser User × Action)}
  {tab : Tab User} {i : Nat}

theorem Tab.Locked.goTo (h : tab.Locked) (pathname : String) : (tab.goTo none pathname).Locked :=
  { memory := h.memory,
    asking := h.asking,
    signing := h.signing,
    place := arrive_none,
    shown := fun hshown => by cases hshown }

theorem Tab.Locked.render (h : tab.Locked) : (tab.render none).Locked := by
  unfold Tab.render
  split
  · rw [if_pos h.memory]
    exact h.goTo "/"
  · rename_i hpage
    exact absurd hpage h.place
  · rename_i hpage
    exact ⟨h.memory, h.asking, h.signing, h.place, fun _ => hpage⟩

/-- A tab that is loaded with the cookie run out is locked from the start. -/
theorem load_locked (hagrees : Agrees b) (hexpired : b.Expired) (pathname : String) :
    (b.load pathname).Locked := by
  have htoken := token_eq_none_of_expired hexpired
  have hplace : page (arrive b.token pathname) ≠ .dashboard := htoken ▸ arrive_none
  exact ⟨hagrees.hydrated_of_expired hexpired, rfl, rfl, hplace, fun hshown => by cases hshown⟩

/-- What locked tabs and new ones can do leaves them locked. -/
theorem Browser.Locked.step (h : b.Locked) (hagrees : Agrees b)
    (hs : Session.step owner b a = some b') : b'.Locked := by
  have htoken := token_eq_none_of_expired h.expired
  cases step_took hs with
  -- an expired token stays expired
  | tick seconds =>
      obtain ⟨c, hc, hle⟩ := h.expired
      exact ⟨⟨c, hc, Nat.le_add_right_of_le hle⟩, h.tabs⟩
  | load i pathname =>
      refine ⟨h.expired, tabs_set_tab h.tabs ?_⟩
      rintro _ ⟨⟩
      exact load_locked hagrees h.expired pathname
  | render i tab htab =>
      refine ⟨h.expired, tabs_set_tab h.tabs ?_⟩
      rintro _ ⟨⟩
      exact htoken ▸ (h.tabs i tab htab).render
  | navigate i pathname tab htab =>
      refine ⟨h.expired, tabs_set_tab h.tabs ?_⟩
      rintro _ ⟨⟩
      exact htoken ▸ (h.tabs i tab htab).goTo pathname
  -- neither the login form nor a page of the dashboard is shown, and the other pages offer no way
  -- out
  | ask_user i access_token tab htab hshown hpage =>
      rw [(h.tabs i tab htab).shown hshown] at hpage
      cases hpage
  | login i tab token user htab hsigning =>
      rw [(h.tabs i tab htab).signing] at hsigning
      cases hsigning
  | logout i tab htab hshown hpage => exact absurd hpage (h.tabs i tab htab).place
  | unauthorized i tab htab hasking =>
      rw [(h.tabs i tab htab).asking] at hasking
      cases hasking
  | settle i tab htab =>
      obtain ⟨hmemory, -, -, hplace, hshown⟩ := h.tabs i tab htab
      refine ⟨h.expired, tabs_set_tab h.tabs ?_⟩
      rintro _ ⟨⟩
      exact ⟨hmemory, rfl, rfl, hplace, hshown⟩
  | close i =>
      refine ⟨h.expired, tabs_set_tab h.tabs ?_⟩
      rintro _ ⟨⟩

theorem Browser.Locked.not_shows (h : b.Locked) : ¬ b.Shows := by
  rintro ⟨i, tab, htab, hshown, hpage⟩
  exact hpage ((h.tabs i tab htab).shown hshown)

/-- No run leads out of a locked state. -/
theorem Browser.Locked.not_recovers (h : b.Locked) (hagrees : Agrees b) : ¬ b.Recovers owner := by
  rintro ⟨tr, b', hrun, hshows⟩
  have hlocked := hrun.invariant (C := fun _ _ => True) (I := fun b => Agrees b ∧ b.Locked)
    (fun _ _ _ h _ hs => ⟨h.1.step hs, h.2.step h.1 hs⟩) ⟨hagrees, h⟩ fun _ _ => trivial
  exact hlocked.2.not_shows hshows

theorem Browser.Recovers.after (h : b'.Recovers owner) (hs : step owner b a = some b') :
    b.Recovers owner := by
  obtain ⟨tr, c, hrun, hshows⟩ := h
  exact ⟨_, c, hrun.after hs, hshows⟩

theorem step_render (owner : Token → User) (htab : b.tabs i = some tab) :
    step owner b (.render i) = some (b.set_tab i (some (tab.render b.token))) := by
  simp [step, htab]

theorem step_navigate (owner : Token → User) (pathname : String) (htab : b.tabs i = some tab)
    (hshown : tab.shown = true) :
    step owner b (.navigate i pathname)
      = some (b.set_tab i (some (tab.goTo b.token pathname))) := by
  simp [step, htab, hshown]

/-- A tab whose page shows something when it comes there. -/
theorem recovers_of_render (htab : b.tabs i = some tab)
    (h : (tab.render b.token).shown = true ∧ page (tab.render b.token).pathname ≠ .other) :
    b.Recovers owner :=
  ⟨_, _, Run.nil.cons (step_render owner htab), i, _, set_tab_self .., h⟩

theorem recovers_of_form (htab : b.tabs i = some tab) (hpage : page tab.pathname = .login)
    (hauth : tab.memory.isAuthenticated = false) : b.Recovers owner := by
  refine recovers_of_render htab ?_
  simp [Tab.render, hpage, hauth]

theorem page_arrive_login : page (arrive none "/login") = .login := by decide +kernel

/-- A 401 response clears all there is. -/
theorem recovers_of_asking (htab : b.tabs i = some tab) (hasking : tab.asking = true) :
    b.Recovers owner := by
  have hs : step owner b (.unauthorized i) = some (b.unauthorized i) := by
    simp [step, htab, hasking]
  exact (recovers_of_form (set_tab_self ..) page_arrive_login rfl).after hs

/-- When a sign-in ends, there is a new cookie. -/
theorem recovers_of_signing (htab : b.tabs i = some tab) {token : Token} {user : User}
    (hsigning : tab.signing = some (token, user)) : b.Recovers owner := by
  have hs : step owner b (.login i) = some (b.login i tab token user) := by
    simp [step, htab, hsigning]
  have hhome : page (arrive (some token) "/") = .dashboard := arrive_some (by decide +kernel) token
  refine (recovers_of_render (Function.update_self ..) ?_).after hs
  simp [Tab.render, Tab.goTo, hhome]

/-- With the cookie run out, a tab that knows that nobody is signed in finds the form. -/
theorem recovers_of_signed_out (hexpired : b.Expired) (htab : b.tabs i = some tab)
    (hauth : tab.memory.isAuthenticated = false) : b.Recovers owner := by
  have htoken := token_eq_none_of_expired hexpired
  cases hpage : page tab.pathname with
  | login => exact recovers_of_form htab hpage hauth
  | dashboard =>
      -- `AuthGuard` sends the visitor there
      have hrender : tab.render b.token = tab.goTo none "/login" := by
        simp [Tab.render, hpage, hauth, htoken]
      refine (recovers_of_form (set_tab_self ..) ?_ ?_).after (step_render owner htab)
      · rw [hrender]
        exact page_arrive_login
      · rw [Tab.render_memory, hauth]
  | other =>
      -- he goes there by himself
      have hrender : tab.render b.token = { tab with shown := true } := by simp [Tab.render, hpage]
      have hshown : (tab.render b.token).shown = true := by rw [hrender]
      refine ((recovers_of_form (set_tab_self ..) ?_ ?_).after
        (step_navigate owner "/login" (set_tab_self ..) hshown)).after (step_render owner htab)
      · exact htoken.symm ▸ page_arrive_login
      · rw [← hauth, hrender]
        rfl

theorem recovers_of_not_locked (hagrees : Agrees b) (hexpired : b.Expired)
    (htab : b.tabs i = some tab) (hopen : ¬ tab.Locked) : b.Recovers owner := by
  by_cases hauth : tab.memory.isAuthenticated = true
  · by_cases hasking : tab.asking = true
    · exact recovers_of_asking htab hasking
    · cases hsigning : tab.signing with
      | some p => exact recovers_of_signing htab hsigning
      | none =>
          by_cases hplace : page tab.pathname = .dashboard
          · have hstored := hagrees.stores.memory i tab htab
            rw [hauth] at hstored
            refine recovers_of_render htab ?_
            simp [Tab.render, hplace, hauth, Option.isNone_eq_false_iff.mpr hstored]
          · -- nothing is left but that it shows something already
            by_contra hno
            refine hopen ⟨hauth, Bool.eq_false_iff.mpr hasking, hsigning, hplace, fun hshown => ?_⟩
            by_contra hpage
            exact hno ⟨[], b, .nil, i, tab, htab, hshown, hpage⟩
  · exact recovers_of_signed_out hexpired htab (Bool.eq_false_iff.mpr hauth)

theorem recovers_of_valid (hagrees : Agrees b) (hvalid : ¬ b.Expired) : b.Recovers owner := by
  have hs : step owner b (.load 0 "/login") = some (b.set_tab 0 (some (b.load "/login"))) := rfl
  have hlogin : page "/login" ≠ .other := by decide +kernel
  obtain ⟨hshown, hpage⟩ := render_load_of_valid hagrees hvalid hlogin
  refine (recovers_of_render (set_tab_self ..) ⟨hshown, fun hother => ?_⟩).after hs
  have hsplit := hpage.symm.trans hother
  split at hsplit <;> cases hsplit

/-- **Who is locked out.** In every state that any number of tabs can reach, some later run leads
to a tab that shows the login form or a page of the dashboard, unless the cookie has run out and
every open tab is locked: it takes the visitor for signed in, has nothing under way, and is on
no page of the dashboard nor shows the login form. From there no run leads back, whatever is
opened, reloaded or waited for. -/
theorem recovers_iff (hrun : Run (step owner) .initial tr b) : b.Recovers owner ↔ ¬ b.Locked := by
  have hagrees := agrees_of_run hrun
  refine ⟨fun h hlocked => hlocked.not_recovers hagrees h, fun hfree => ?_⟩
  by_cases hexpired : b.Expired
  · obtain ⟨i, tab, htab, hopen⟩ : ∃ i tab, b.tabs i = some tab ∧ ¬ tab.Locked := by
      by_contra hnone
      refine hfree ⟨hexpired, fun i tab htab => ?_⟩
      by_contra hopen
      exact hnone ⟨i, tab, htab, hopen⟩
    exact recovers_of_not_locked hagrees hexpired htab hopen
  · exact recovers_of_valid hagrees hexpired

end

/-- Alice signs in and follows a link to a page that is not there, and a week goes by. -/
def leaving_actions : List Action :=
  signing_in alice ++ [.render 0, .navigate 0 "/nowhere", .render 0, .settle 0, .tick MAX_AGE]

/-- The page is open all the time, and nothing leads her back. -/
theorem recovers_iff_elsewhere :
    ∃ tr b tab, Run (step Token.text) .initial tr b ∧ b.tabs 0 = some tab ∧
      tab.shown = true ∧ ¬ b.Recovers Token.text := by
  obtain ⟨b, hb⟩ : ∃ b, Lib.exec (step Token.text) .initial leaving_actions = some b :=
    Option.isSome_iff_exists.mp (by decide +kernel)
  have hothers (i : Nat) : b.tabs (i + 1) = none := by
    have hexec : (Lib.exec (step Token.text) .initial leaving_actions).map
        (fun b => (b.tabs (i + 1)).isNone) = some true := rfl
    rw [hb] at hexec
    simpa using hexec
  have hend : (Lib.exec (step Token.text) .initial leaving_actions).map (fun b =>
      decide (b.cookie = some ⟨alice, MAX_AGE⟩ ∧ b.clock = MAX_AGE ∧
        ∃ tab ∈ b.tabs 0, tab.memory.isAuthenticated = true ∧ tab.asking = false ∧
          tab.signing = none ∧ page tab.pathname = .other ∧ tab.shown = true)) = some true := by
    decide +kernel
  rw [hb, Option.map_some, Option.some_inj, decide_eq_true_eq] at hend
  obtain ⟨hcookie, hclock, tab, htab, hmemory, hasking, hsigning, hpage, hshown⟩ := hend
  have hlocked : b.Locked := by
    refine ⟨⟨_, hcookie, Nat.le_of_eq hclock.symm⟩, fun i tab' htab' => ?_⟩
    cases i with
    | zero =>
        obtain rfl := Option.some.inj (htab.symm.trans htab')
        exact ⟨hmemory, hasking, hsigning, by rw [hpage]; simp, fun _ => hpage⟩
    | succ i =>
        rw [hothers i] at htab'
        cases htab'
  have hrun := run_trace hb
  exact ⟨_, b, tab, hrun, htab, hshown, fun h => (recovers_iff hrun).mp h hlocked⟩

end WalStream.Frontend.Session
