/-
Under whose name a visitor is signed in.

A sign-in gets its token first, and then asks the API for the user with it. The client puts the
token of `localStorage` over the one it is given, so that the answer names the owner of that one,
if another tab has signed somebody in meanwhile; token and name are stored together.
`tokens_owned_iff` says that names are wrong in this case only.
-/
import WalStream.Frontend.Session

set_option autoImplicit false

namespace WalStream.Frontend.Session

open Lib

variable {User : Type}

/-! ## Whose token it is -/

/-- A store that holds a token names its owner as the user. -/
def AuthState.Owned (owner : Token → User) (state : AuthState User) : Prop :=
  ∀ token, state.token = some token → state.user = some (owner token)

/-- So do all stores and the sign-ins under way. The stores of the tabs are separate: a tab
reads `localStorage` when it is loaded and not again. -/
structure Browser.TokensOwned (owner : Token → User) (b : Browser User) : Prop where
  stores : Stores (AuthState.Owned owner) b
  signing : ∀ i tab, b.tabs i = some tab → ∀ token user, tab.signing = some (token, user) →
    user = owner token

/-- A sign-in asks for its user while no token of somebody else is in `localStorage`, which
would go over its own. The interceptor of the client is what puts it there. -/
def AsksAsItself (owner : Token → User) (b : Browser User) (a : Action) : Prop :=
  ∀ i access_token, a = .ask_user i access_token → owner (b.carried access_token) = owner access_token

section

variable {owner : Token → User} {b b' : Browser User} {a : Action} {tr : List (Browser User × Action)}

/-- The name of a sign-in under way comes from the answer, and the answer is for the token that
was sent. -/
theorem Browser.TokensOwned.step_signing (h : b.TokensOwned owner) (hs : step owner b a = some b')
    (hasks : AsksAsItself owner b a) : ∀ i tab, b'.tabs i = some tab →
      ∀ token user, tab.signing = some (token, user) → user = owner token := by
  cases step_took hs with
  | tick seconds => exact h.signing
  | load i pathname =>
      refine tabs_set_tab h.signing ?_
      rintro _ ⟨⟩ token user ⟨⟩
  | render i tab htab =>
      refine tabs_set_tab h.signing ?_
      rintro _ ⟨⟩
      rw [Tab.render_signing]
      exact h.signing i tab htab
  | navigate i pathname tab htab =>
      refine tabs_set_tab h.signing ?_
      rintro _ ⟨⟩
      exact h.signing i tab htab
  -- the one step that puts a token in flight: the answer to it is the owner's
  | ask_user i access_token tab htab hshown hpage =>
      refine tabs_set_tab h.signing ?_
      rintro _ ⟨⟩ token user ⟨⟩
      exact hasks i access_token rfl
  | login i tab token user htab hsigning =>
      refine tabs_set_tab h.signing ?_
      rintro _ ⟨⟩ token user ⟨⟩
  | logout i tab htab hshown hpage =>
      refine tabs_set_tab h.signing ?_
      rintro _ ⟨⟩
      exact h.signing i tab htab
  | unauthorized i tab htab hasking =>
      refine tabs_set_tab h.signing ?_
      rintro _ ⟨⟩ token user ⟨⟩
  | settle i tab htab =>
      refine tabs_set_tab h.signing ?_
      rintro _ ⟨⟩ token user ⟨⟩
  | close i =>
      refine tabs_set_tab h.signing ?_
      rintro _ ⟨⟩

/-- **One step.** Of all the steps only the answer to a sign-in brings a name to a token, so
this is the one step that can join a token with a name that is not its owner's. -/
theorem tokensOwned_step_iff (h : b.TokensOwned owner) (hs : step owner b a = some b') :
    b'.TokensOwned owner ↔ AsksAsItself owner b a := by
  refine ⟨?_, fun hasks => ⟨h.stores.step hs ?_ ?_, h.step_signing hs hasks⟩⟩
  · rintro hnew i access_token rfl
    cases step_took hs with
    | ask_user i access_token tab htab hshown hpage =>
        exact hnew.signing i _ (set_tab_self ..) access_token _ rfl
  · intro token htoken
    cases htoken
  · intro i tab token user htab hsigning
    rw [h.signing i tab htab token user hsigning]
    rintro _ ⟨⟩
    rfl

/-- A browser nobody has used has no token. -/
theorem tokensOwned_initial : (Browser.initial : Browser User).TokensOwned owner where
  stores := ⟨by rintro _ ⟨⟩, by rintro _ _ ⟨⟩⟩
  signing := by rintro _ _ ⟨⟩

/-- **Whose session it is.** Along a run of any number of tabs, every store and every sign-in
under way has the owner of its token as its user if and only if every sign-in asks the API for
its user while no token of somebody else is in `localStorage`. -/
theorem tokens_owned_iff (hrun : Run (step owner) .initial tr b) :
    ((∀ p ∈ tr, p.1.TokensOwned owner) ∧ b.TokensOwned owner)
      ↔ StepsMeet (AsksAsItself owner) tr :=
  Run.exact (P := fun b => b.TokensOwned owner) (J := fun _ => True)
    (fun _ _ _ h _ hs => tokensOwned_step_iff h hs) (fun _ _ _ _ _ _ _ => trivial)
    tokensOwned_initial trivial hrun

end

def bob : Token := { text := "bob", nonempty := by decide }

/-- Bob signs in, in a tab that has shown the login form since before Alice did in hers. -/
def signing_in_both : List Action :=
  [.load 1 "/login", .render 1] ++ signing_in alice ++ [.ask_user 1 bob, .login 1]

/-- His token is stored under her name. -/
theorem tokens_owned_iff_both :
    ∃ tr b, Run (step Token.text) .initial tr b ∧
      b.stored = some { token := some bob, user := some "alice", isAuthenticated := true } ∧
      ¬ StepsMeet (AsksAsItself Token.text) tr := by
  obtain ⟨tr, b, hrun, hstored⟩ :
      ∃ tr b, Run (step Token.text) .initial tr b ∧
        b.stored = some { token := some bob, user := some "alice", isAuthenticated := true } :=
    exists_run_of_exec signing_in_both (by decide +kernel)
  refine ⟨tr, b, hrun, hstored, fun hasks => ?_⟩
  have howned := ((tokens_owned_iff hrun).mpr hasks).2.stores.hydrated
  have huser : some "alice" = some bob.text := by
    simpa [Browser.hydrated, hstored] using howned bob
  exact absurd huser (by decide)

/-! ## One tab -/

def Action.tab : Action → Option Nat
  | .tick _ => none
  | .load i _ => some i
  | .render i => some i
  | .navigate i _ => some i
  | .ask_user i _ => some i
  | .login i => some i
  | .logout i => some i
  | .unauthorized i => some i
  | .settle i => some i
  | .close i => some i

/-- The action is of the tab `i`, if it is of a tab. A token that expires is no action of a tab,
nor is a deletion of the cookie by the user. -/
def OnlyTab (i : Nat) (a : Action) : Prop := ∀ j ∈ a.tab, j = i

instance (i : Nat) : DecidablePred (OnlyTab i) := fun a =>
  inferInstanceAs (Decidable (∀ j ∈ a.tab, j = i))

/-- The store of the tab is that of `localStorage`, and it is empty while the tab shows the
login form. With one tab nobody writes `localStorage` behind its back. -/
def InStep (hydrated : AuthState User) (tab : Tab User) : Prop :=
  tab.memory = hydrated ∧
    (tab.shown = true → page tab.pathname = .login → tab.memory.isAuthenticated = false)

section

variable {owner : Token → User} {b b' : Browser User} {a : Action} {tr : List (Browser User × Action)}
  {i : Nat}

/-- Showing a page changes neither. -/
theorem InStep.render {hydrated : AuthState User} {tab : Tab User} (h : InStep hydrated tab)
    (token : Option Token) : InStep hydrated (tab.render token) := by
  refine ⟨by rw [Tab.render_memory, h.1], ?_⟩
  unfold Tab.render
  split
  · split
    · rintro ⟨⟩
    · rename_i hauth
      exact fun _ _ => Bool.eq_false_iff.mpr hauth
  · rename_i hpage
    split
    · rintro ⟨⟩
    · intro _ hlogin
      rw [hpage] at hlogin
      cases hlogin
  · rename_i hpage
    intro _ hlogin
    rw [hpage] at hlogin
    cases hlogin

/-- It is kept by every step of the one tab, which writes both at once. -/
theorem inStep_step (h : ∀ tab, b.tabs i = some tab → InStep b.hydrated tab) (hone : OnlyTab i a)
    (hs : step owner b a = some b') : ∀ tab, b'.tabs i = some tab → InStep b'.hydrated tab := by
  intro tab' htab'
  -- but for `tick`, the action is of the tab `i`
  cases step_took hs with
  | tick seconds => exact h tab' htab'
  | load j pathname =>
      obtain rfl := hone j rfl
      cases (set_tab_self ..).symm.trans htab'
      exact ⟨rfl, by rintro ⟨⟩⟩
  | render j tab htab =>
      obtain rfl := hone j rfl
      cases (set_tab_self ..).symm.trans htab'
      exact (h tab htab).render b.token
  | navigate j pathname tab htab =>
      obtain rfl := hone j rfl
      cases (set_tab_self ..).symm.trans htab'
      exact ⟨(h tab htab).1, by rintro ⟨⟩⟩
  | ask_user j access_token tab htab hshown hpage =>
      obtain rfl := hone j rfl
      cases (set_tab_self ..).symm.trans htab'
      exact h tab htab
  | login j tab token user htab hsigning =>
      obtain rfl := hone j rfl
      cases (set_tab_self ..).symm.trans htab'
      exact ⟨rfl, by rintro ⟨⟩⟩
  | logout j tab htab hshown hpage =>
      obtain rfl := hone j rfl
      cases (set_tab_self ..).symm.trans htab'
      exact ⟨rfl, fun _ _ => rfl⟩
  | unauthorized j tab htab hasking =>
      obtain rfl := hone j rfl
      cases (set_tab_self ..).symm.trans htab'
      exact ⟨rfl, by rintro ⟨⟩⟩
  | settle j tab htab =>
      obtain rfl := hone j rfl
      cases (set_tab_self ..).symm.trans htab'
      exact h tab htab
  | close j =>
      obtain rfl := hone j rfl
      cases (set_tab_self ..).symm.trans htab'

/-- And then a sign-in finds `localStorage` empty, or with its own token. -/
theorem asksAsItself_of_inStep (hagrees : Agrees b)
    (h : ∀ tab, b.tabs i = some tab → InStep b.hydrated tab) (hone : OnlyTab i a)
    (hs : step owner b a = some b') : AsksAsItself owner b a := by
  rintro j access_token rfl
  obtain rfl := hone j rfl
  cases step_took hs with
  | ask_user j access_token tab htab hshown hpage =>
      obtain ⟨hmemory, hform⟩ := h tab htab
      have hauth := hform hshown hpage
      have hstored := hagrees.stores.hydrated
      rw [← hmemory, hauth, hmemory, Option.isSome_eq_false_iff, Option.isNone_iff_eq_none] at hstored
      have hnone : b.stored.bind AuthState.token = none := by
        cases hb : b.stored with
        | none => rfl
        | some state => simpa [Browser.hydrated, hb] using hstored
      rw [Browser.carried, hnone, Option.getD_none]

/-- **It takes two tabs.** Along a run in one tab, every store and every sign-in under way has the
owner of its token as its user. -/
theorem tokens_owned_in_one_tab (hrun : Run (step owner) .initial tr b)
    (hone : StepsMeet (fun _ a => OnlyTab i a) tr) : b.TokensOwned owner := by
  have hall := hrun.invariant (C := fun _ a => OnlyTab i a)
    (I := fun b => b.TokensOwned owner ∧ Agrees b ∧
      ∀ tab, b.tabs i = some tab → InStep b.hydrated tab)
    (fun b a b' h hone hs => ?_) ?_ hone
  · exact hall.1
  · obtain ⟨howned, hagrees, hstep⟩ := h
    exact ⟨(tokensOwned_step_iff howned hs).mpr (asksAsItself_of_inStep hagrees hstep hone hs),
      hagrees.step hs, inStep_step hstep hone hs⟩
  · exact ⟨tokensOwned_initial, agrees_initial, by rintro _ ⟨⟩⟩

end

/-- Alice alone is signed in as herself. -/
theorem tokens_owned_in_one_tab_alice :
    ∃ tr b, Run (step Token.text) .initial tr b ∧ StepsMeet (fun _ a => OnlyTab 0 a) tr ∧
      b.stored = some { token := some alice, user := some "alice", isAuthenticated := true } ∧
      b.TokensOwned Token.text := by
  obtain ⟨tr, b, hrun, hone, hstored⟩ :
      ∃ tr b, Run (step Token.text) .initial tr b ∧ StepsMeet (fun _ a => OnlyTab 0 a) tr ∧
        b.stored = some { token := some alice, user := some "alice", isAuthenticated := true } :=
    exists_run_meeting_of_exec (signing_in alice) (.of_forall fun _ => by decide) (by decide +kernel)
  exact ⟨tr, b, hrun, hone, hstored, tokens_owned_in_one_tab hrun hone⟩

end WalStream.Frontend.Session
