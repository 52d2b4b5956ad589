import Mathlib.Logic.Function.Basic
import Dolgate.Transition

set_option autoImplicit false

namespace Dolgate.RefreshTokens
open Transition

structure UserRow where
  email : String
  passwordHash : String
deriving DecidableEq, Repr

structure User where
  id : String
  email : String
  passwordHash : String
deriving DecidableEq, Repr

structure RefreshTokenRow where
  userID : String
  expiresAt : Int
  lastUsedAt : Int
  graceUntil : Option Int
  supersededAt : Option Int
deriving DecidableEq, Repr

structure RefreshToken where
  userID : String
  tokenHash : String
  expiresAt : Int
  lastUsedAt : Int
  graceUntil : Option Int
  supersededAt : Option Int
deriving DecidableEq, Repr

structure AuthIdentityRow where
  userID : String
  email : String
  emailVerified : Bool
deriving DecidableEq, Repr

structure ExchangeCodeRow where
  userID : String
  expiresAt : Int
deriving DecidableEq, Repr

structure Store where
  users : String → Option UserRow
  refreshTokens : String → Option RefreshTokenRow
  exchangeCodes : String → Option ExchangeCodeRow
  authIdentities : List AuthIdentityRow

inductive Err where
  | invalidCredentials
  | expiredRefreshToken
  | passwordChangeUnavailable
  | invalidPassword
  | currentPasswordInvalid
  | passwordReuse
  | passwordConflict
  | refreshTokenNotFound
  | recordNotFound
  | requiredArgument
  | driver
deriving DecidableEq, Repr

/-- The service's settings, and the hash functions and database comparisons it calls. -/
structure Config where
  sqlite : Bool
  localAuthEnabled : Bool
  refreshTokenIdleTTL : Int
  hashToken : String → String
  compareHashAndPassword : String → String → Bool
  generateFromPassword : String → String → Option String
  sameEmail : String → String → Bool

def getUserByID (id : String) (s : Store) : Except Err User :=
  match s.users id with
  | none => .error .recordNotFound
  | some row => .ok ⟨id, row.email, row.passwordHash⟩

def hasVerifiedAuthIdentity (cfg : Config) (userID email : String) (s : Store) : Bool :=
  s.authIdentities.any fun row =>
    row.userID == userID && row.emailVerified && cfg.sameEmail row.email email

def getRefreshToken (tokenHash : String) (s : Store) : Except Err RefreshToken :=
  match s.refreshTokens tokenHash with
  | none => .error .recordNotFound
  | some row =>
      .ok ⟨row.userID, tokenHash, row.expiresAt, row.lastUsedAt, row.graceUntil, row.supersededAt⟩

/-- An upsert on `token_hash`: a row that is gone is inserted again. -/
def saveRefreshToken (token : RefreshToken) (s : Store) : Store :=
  { s with
    refreshTokens := Function.update s.refreshTokens token.tokenHash
      (some ⟨token.userID, token.expiresAt, token.lastUsedAt, token.graceUntil,
        token.supersededAt⟩) }

def deleteRefreshToken (tokenHash : String) (s : Store) : Store :=
  { s with refreshTokens := Function.update s.refreshTokens tokenHash none }

def lockUserRowTx (cfg : Config) (userID : String) (s : Store) : Except Err Unit :=
  if cfg.sqlite then .ok ()
  else if (s.users userID).isSome then .ok () else .error .recordNotFound

/-- The checks of `updateUserPassword`, up to its first write. -/
def checkPasswordUpdate (cfg : Config) (now : Int)
    (userID expectedPasswordHash passwordHash keepRefreshTokenHash : String) (s : Store) :
    Except Err UserRow :=
  if userID = "" ∨ passwordHash = "" ∨ keepRefreshTokenHash = "" then .error .requiredArgument
  else do
    lockUserRowTx cfg userID s
    match s.users userID with
    | none => .error .recordNotFound
    | some user =>
        if user.passwordHash ≠ expectedPasswordHash then .error .passwordConflict
        else
          match s.refreshTokens keepRefreshTokenHash with
          | some row =>
              if row.userID = userID ∧ row.expiresAt > now then .ok user
              else .error .refreshTokenNotFound
          | none => .error .refreshTokenNotFound

def updateUserPassword (cfg : Config) (now : Int)
    (userID expectedPasswordHash passwordHash keepRefreshTokenHash : String) (s : Store) :
    Except Err Store := do
  let user ← checkPasswordUpdate cfg now userID expectedPasswordHash passwordHash
    keepRefreshTokenHash s
  return { s with
    users := Function.update s.users userID (some { user with passwordHash := passwordHash })
    refreshTokens := fun h => (s.refreshTokens h).filter fun row =>
      !(row.userID == userID && h != keepRefreshTokenHash)
    exchangeCodes := fun h => (s.exchangeCodes h).filter fun row => row.userID != userID }

def deleteUserData (cfg : Config) (userID : String) (s : Store) : Except Err Store :=
  if userID = "" then .error .requiredArgument
  else do
    lockUserRowTx cfg userID s
    return { s with
      users := Function.update s.users userID none
      refreshTokens := fun h => (s.refreshTokens h).filter fun row => row.userID != userID
      exchangeCodes := fun h => (s.exchangeCodes h).filter fun row => row.userID != userID
      authIdentities := s.authIdentities.filter fun row => row.userID != userID }

inductive Request where
  | refresh (refreshToken : String)
  | logout (refreshToken : String)
  | changePassword (userID currentPassword newPassword refreshToken salt : String)
  | deleteAccount (userID : String)
deriving DecidableEq, Repr

inductive Handler where
  | refresh (refreshToken : String)
  | refreshExpired (tokenHash : String)
  | refreshUser (refreshToken : String) (now : Int) (record : RefreshToken)
  | refreshSave (refreshToken : String) (user : User) (record : RefreshToken)
  | logout (tokenHash : String)
  | passwordUser (userID currentPassword newPassword refreshToken salt : String)
  | passwordIdentity (user : User) (newPassword refreshToken salt : String)
  | passwordUpdate (user : User) (passwordHash keepRefreshTokenHash : String)
  | deleteAccount (userID : String)
  | issued (refreshToken : String) (refreshExpiresAt : Int)
  | finished (result : Except Err Unit)

def Request.start (cfg : Config) : Request → Handler
  | .refresh refreshToken => .refresh refreshToken
  | .logout refreshToken =>
      if refreshToken = "" then .finished (.ok ()) else .logout (cfg.hashToken refreshToken)
  | .changePassword userID currentPassword newPassword refreshToken salt =>
      if !cfg.localAuthEnabled then .finished (.error .passwordChangeUnavailable)
      else if newPassword.length < 8 ∨ newPassword.utf8ByteSize > 72 then
        .finished (.error .invalidPassword)
      else .passwordUser userID currentPassword newPassword refreshToken salt
  | .deleteAccount userID =>
      if userID = "" then .finished (.error .requiredArgument) else .deleteAccount userID

def renew (cfg : Config) (now : Int) (record : RefreshToken) : RefreshToken :=
  { record with
    lastUsedAt := now
    expiresAt := now + cfg.refreshTokenIdleTTL
    supersededAt := none
    graceUntil := none }

def hashNewPassword (cfg : Config) (user : User) (newPassword refreshToken salt : String) :
    Handler :=
  match cfg.generateFromPassword salt newPassword with
  | none => .finished (.error .driver)
  | some passwordHash => .passwordUpdate user passwordHash (cfg.hashToken refreshToken)

def passwordError : Err → Err
  | .passwordConflict => .currentPasswordInvalid
  | .refreshTokenNotFound => .invalidCredentials
  | err => err

/-- One store call of a handler and the code up to its next one. `fault` is an error of the
database driver, after which the tables are as they were. -/
def Handler.advance (cfg : Config) (now : Int) (fault : Bool) (s : Store) :
    Handler → Option (Handler × Store)
  | .refresh refreshToken =>
      match if fault then .error .driver else getRefreshToken (cfg.hashToken refreshToken) s with
      | .error _ => some (.finished (.error .invalidCredentials), s)
      | .ok record =>
          if now > record.expiresAt then some (.refreshExpired (cfg.hashToken refreshToken), s)
          else some (.refreshUser refreshToken now record, s)
  | .refreshExpired tokenHash =>
      some (.finished (.error .expiredRefreshToken),
        if fault then s else deleteRefreshToken tokenHash s)
  | .refreshUser refreshToken readAt record =>
      match if fault then .error .driver else getUserByID record.userID s with
      | .error _ => some (.finished (.error .invalidCredentials), s)
      | .ok user => some (.refreshSave refreshToken user (renew cfg readAt record), s)
  | .refreshSave refreshToken _ record =>
      if fault then some (.finished (.error .driver), s)
      else some (.issued refreshToken record.expiresAt, saveRefreshToken record s)
  | .logout tokenHash =>
      if fault then some (.finished (.error .driver), s)
      else some (.finished (.ok ()), deleteRefreshToken tokenHash s)
  | .passwordUser userID currentPassword newPassword refreshToken salt =>
      match if fault then .error .driver else getUserByID userID s with
      | .error _ => some (.finished (.error .invalidCredentials), s)
      | .ok user =>
          if user.passwordHash = "" then
            some (.passwordIdentity user newPassword refreshToken salt, s)
          else if !cfg.compareHashAndPassword user.passwordHash currentPassword then
            some (.finished (.error .currentPasswordInvalid), s)
          else if cfg.compareHashAndPassword user.passwordHash newPassword then
            some (.finished (.error .passwordReuse), s)
          else some (hashNewPassword cfg user newPassword refreshToken salt, s)
  | .passwordIdentity user newPassword refreshToken salt =>
      if fault then some (.finished (.error .driver), s)
      else if !hasVerifiedAuthIdentity cfg user.id user.email s then
        some (.finished (.error .passwordChangeUnavailable), s)
      else some (hashNewPassword cfg user newPassword refreshToken salt, s)
  | .passwordUpdate user passwordHash keepRefreshTokenHash =>
      match if fault then .error .driver
        else updateUserPassword cfg now user.id user.passwordHash passwordHash
          keepRefreshTokenHash s with
      | .error err => some (.finished (.error (passwordError err)), s)
      | .ok t => some (.finished (.ok ()), t)
  | .deleteAccount userID =>
      match if fault then .error .driver else deleteUserData cfg userID s with
      | .error err => some (.finished (.error err), s)
      | .ok t => some (.finished (.ok ()), t)
  | .issued _ _ => none
  | .finished _ => none

structure System where
  store : Store
  handlers : List Handler

inductive Event where
  | receive (request : Request)
  | call (i : Nat) (now : Int) (fault : Bool)
deriving DecidableEq, Repr

def step (cfg : Config) (s : System) : Event → Option System
  | .receive request => some { s with handlers := s.handlers ++ [request.start cfg] }
  | .call i now fault =>
      match s.handlers[i]? with
      | none => none
      | some p =>
          (p.advance cfg now fault s.store).map fun (q, store) =>
            { store := store, handlers := s.handlers.set i q }

/-- The handler has read the token and will write it back, if the user it looks up is there. -/
def Handler.holds (users : String → Option UserRow) (tokenHash : String) : Handler → Prop
  | .refreshUser _ _ record => record.tokenHash = tokenHash ∧ (users record.userID).isSome
  | .refreshSave _ _ record => record.tokenHash = tokenHash
  | _ => False

/-- `logout`, `changePassword` and `deleteAccount` at the store call that revokes tokens. -/
def Handler.isRevocation : Handler → Bool
  | .logout _ => true
  | .passwordUpdate _ _ _ => true
  | .deleteAccount _ => true
  | _ => false

def Handler.revokes (cfg : Config) (now : Int) (s : Store) (tokenHash : String)
    (row : RefreshTokenRow) : Handler → Prop
  | .logout h => tokenHash = h
  | .passwordUpdate user passwordHash keep =>
      (checkPasswordUpdate cfg now user.id user.passwordHash passwordHash keep s).isOk ∧
        row.userID = user.id ∧ tokenHash ≠ keep
  | .deleteAccount userID => row.userID = userID
  | _ => False

def Handler.usersLeft (users : String → Option UserRow) : Handler → String → Option UserRow
  | .deleteAccount userID => Function.update users userID none
  | _ => users

/-- When the step revokes a token, no `refresh` in flight still holds it. -/
def NoPendingSave (cfg : Config) (s : System) : Event → Prop
  | .receive _ => True
  | .call i now fault =>
      ∀ p h row, fault = false → s.handlers[i]? = some p → s.store.refreshTokens h = some row →
        p.revokes cfg now s.store h row →
          ∀ q ∈ s.handlers, ¬ q.holds (p.usersLeft s.store.users) h

def Gone (tokenHash : String) (s : System) : Prop :=
  s.store.refreshTokens tokenHash = none ∧ ∀ q ∈ s.handlers, ¬ q.holds s.store.users tokenHash

variable {cfg : Config} {now : Int} {fault : Bool} {s t : Store} {p q : Handler} {k : String}

theorem checkPasswordUpdate_user {userID expected new keep : String} {user : UserRow}
    (h : checkPasswordUpdate cfg now userID expected new keep s = .ok user) :
    s.users userID = some user := by
  unfold checkPasswordUpdate at h
  split at h
  · cases h
  · cases hl : lockUserRowTx cfg userID s with
    | error err => simp [hl, bind, Except.bind] at h
    | ok u =>
        simp only [hl, bind, Except.bind] at h
        cases hu : s.users userID with
        | none => simp [hu] at h
        | some row =>
            simp only [hu] at h
            split at h
            · cases h
            · split at h
              · split at h
                · simpa using h
                · cases h
              · cases h

theorem updateUserPassword_ok {userID expected new keep : String}
    (h : updateUserPassword cfg now userID expected new keep s = .ok t) :
    ∃ user, checkPasswordUpdate cfg now userID expected new keep s = .ok user ∧
      t.users = Function.update s.users userID (some { user with passwordHash := new }) ∧
      t.refreshTokens = fun h => (s.refreshTokens h).filter fun row =>
        !(row.userID == userID && h != keep) := by
  unfold updateUserPassword at h
  cases hc : checkPasswordUpdate cfg now userID expected new keep s with
  | error err => simp [hc, bind, Except.bind] at h
  | ok user =>
      simp only [hc, bind, Except.bind, pure, Except.pure, Except.ok.injEq] at h
      subst h
      exact ⟨user, rfl, rfl, rfl⟩

theorem deleteUserData_ok {userID : String} (h : deleteUserData cfg userID s = .ok t) :
    t.users = Function.update s.users userID none ∧
      t.refreshTokens = fun h => (s.refreshTokens h).filter fun row => row.userID != userID := by
  unfold deleteUserData at h
  split at h
  · cases h
  · cases hl : lockUserRowTx cfg userID s with
    | error err => simp [hl, bind, Except.bind] at h
    | ok u =>
        simp only [hl, bind, Except.bind, pure, Except.pure, Except.ok.injEq] at h
        subst h
        exact ⟨rfl, rfl⟩

theorem not_holds_hashNewPassword {users : String → Option UserRow} {user : User}
    {new token salt : String} : ¬ (hashNewPassword cfg user new token salt).holds users k := by
  unfold hashNewPassword
  split <;> simp [Handler.holds]

theorem not_holds_start {users : String → Option UserRow} (r : Request) :
    ¬ (r.start cfg).holds users k := by
  cases r with
  | refresh token => simp [Request.start, Handler.holds]
  | logout token =>
      simp only [Request.start]
      split <;> simp [Handler.holds]
  | changePassword userID current new token salt =>
      simp only [Request.start]
      split
      · simp [Handler.holds]
      · split <;> simp [Handler.holds]
  | deleteAccount userID =>
      simp only [Request.start]
      split <;> simp [Handler.holds]

inductive Effect (cfg : Config) (now : Int) (s : Store) : Handler → Handler → Store → Prop where
  | ended {p q : Handler} (hq : ∀ users k, ¬ q.holds users k) : Effect cfg now s p q s
  | tokenRead {token : String} {record : RefreshToken}
      (hr : getRefreshToken (cfg.hashToken token) s = .ok record) :
      Effect cfg now s (.refresh token) (.refreshUser token now record) s
  | userRead {token : String} {readAt : Int} {record : RefreshToken} {user : User}
      (hu : getUserByID record.userID s = .ok user) :
      Effect cfg now s (.refreshUser token readAt record)
        (.refreshSave token user (renew cfg readAt record)) s
  | saved {token : String} {user : User} {record : RefreshToken} :
      Effect cfg now s (.refreshSave token user record) (.issued token record.expiresAt)
        (saveRefreshToken record s)
  | expired {tokenHash : String} :
      Effect cfg now s (.refreshExpired tokenHash) (.finished (.error .expiredRefreshToken))
        (deleteRefreshToken tokenHash s)
  | loggedOut {tokenHash : String} :
      Effect cfg now s (.logout tokenHash) (.finished (.ok ())) (deleteRefreshToken tokenHash s)
  | passwordChanged {user : User} {new keep : String} {t : Store}
      (ht : updateUserPassword cfg now user.id user.passwordHash new keep s = .ok t) :
      Effect cfg now s (.passwordUpdate user new keep) (.finished (.ok ())) t
  | accountDeleted {userID : String} {t : Store} (ht : deleteUserData cfg userID s = .ok t) :
      Effect cfg now s (.deleteAccount userID) (.finished (.ok ())) t

theorem advance_effect (h : p.advance cfg now fault s = some (q, t)) :
    Effect cfg now s p q t ∧ (fault = true → t = s) := by
  cases p with
  | refresh token =>
      simp only [Handler.advance] at h
      split at h
      · cases h
        exact ⟨.ended (by simp [Handler.holds]), fun _ => rfl⟩
      · rename_i record hr
        split at h
        · cases h
          exact ⟨.ended (by simp [Handler.holds]), fun _ => rfl⟩
        · cases h
          cases fault with
          | true => cases hr
          | false => exact ⟨.tokenRead hr, fun _ => rfl⟩
  | refreshExpired tokenHash =>
      cases fault with
      | true =>
          cases h
          exact ⟨.ended (by simp [Handler.holds]), fun _ => rfl⟩
      | false =>
          cases h
          exact ⟨.expired, nofun⟩
  | refreshUser token readAt record =>
      simp only [Handler.advance] at h
      split at h
      · cases h
        exact ⟨.ended (by simp [Handler.holds]), fun _ => rfl⟩
      · rename_i user hu
        cases h
        cases fault with
        | true => cases hu
        | false => exact ⟨.userRead hu, fun _ => rfl⟩
  | refreshSave token user record =>
      cases fault with
      | true =>
          cases h
          exact ⟨.ended (by simp [Handler.holds]), fun _ => rfl⟩
      | false =>
          cases h
          exact ⟨.saved, nofun⟩
  | logout tokenHash =>
      cases fault with
      | true =>
          cases h
          exact ⟨.ended (by simp [Handler.holds]), fun _ => rfl⟩
      | false =>
          cases h
          exact ⟨.loggedOut, nofun⟩
  | passwordUser userID current new token salt =>
      simp only [Handler.advance] at h
      split at h
      · cases h
        exact ⟨.ended (by simp [Handler.holds]), fun _ => rfl⟩
      · split at h
        · cases h
          exact ⟨.ended (by simp [Handler.holds]), fun _ => rfl⟩
        · split at h
          · cases h
            exact ⟨.ended (by simp [Handler.holds]), fun _ => rfl⟩
          · split at h
            · cases h
              exact ⟨.ended (by simp [Handler.holds]), fun _ => rfl⟩
            · cases h
              exact ⟨.ended fun _ _ => not_holds_hashNewPassword, fun _ => rfl⟩
  | passwordIdentity user new token salt =>
      simp only [Handler.advance] at h
      split at h
      · cases h
        exact ⟨.ended (by simp [Handler.holds]), fun _ => rfl⟩
      · split at h
        · cases h
          exact ⟨.ended (by simp [Handler.holds]), fun _ => rfl⟩
        · cases h
          exact ⟨.ended fun _ _ => not_holds_hashNewPassword, fun _ => rfl⟩
  | passwordUpdate user new keep =>
      simp only [Handler.advance] at h
      split at h
      · cases h
        exact ⟨.ended (by simp [Handler.holds]), fun _ => rfl⟩
      · rename_i u hu
        cases h
        cases fault with
        | true => cases hu
        | false => exact ⟨.passwordChanged hu, nofun⟩
  | deleteAccount userID =>
      simp only [Handler.advance] at h
      split at h
      · cases h
        exact ⟨.ended (by simp [Handler.holds]), fun _ => rfl⟩
      · rename_i u hu
        cases h
        cases fault with
        | true => cases hu
        | false => exact ⟨.accountDeleted hu, nofun⟩
  | issued token expiresAt => cases h
  | finished result => cases h

theorem Handler.holds_mono {a b : String → Option UserRow}
    (h : ∀ u, (a u).isSome → (b u).isSome) (hq : q.holds a k) : q.holds b k := by
  cases q with
  | refreshUser token readAt record => exact ⟨hq.1, h record.userID hq.2⟩
  | refreshSave token user record => exact hq
  | _ => exact hq.elim

theorem usersLeft_isSome {users : String → Option UserRow} (u : String)
    (h : (p.usersLeft users u).isSome) : (users u).isSome := by
  cases p with
  | deleteAccount userID =>
      by_cases hu : u = userID
      · simp [Handler.usersLeft, hu] at h
      · simpa [Handler.usersLeft, Function.update_of_ne hu] using h
  | _ => exact h

theorem updateUserPassword_users {userID expected new keep : String}
    (h : updateUserPassword cfg now userID expected new keep s = .ok t) (u : String) :
    (t.users u).isSome = (s.users u).isSome := by
  obtain ⟨row, hc, hu, -⟩ := updateUserPassword_ok h
  rw [hu]
  by_cases hk : u = userID
  · simp [hk, checkPasswordUpdate_user hc]
  · simp [Function.update_of_ne hk]

theorem Effect.users_isSome (h : Effect cfg now s p q t) (u : String)
    (hu : (t.users u).isSome) : (s.users u).isSome := by
  cases h with
  | passwordChanged ht => exact updateUserPassword_users ht u ▸ hu
  | accountDeleted ht =>
      rw [(deleteUserData_ok ht).1] at hu
      exact usersLeft_isSome (p := .deleteAccount _) u hu
  | _ => exact hu

theorem Effect.refreshTokens_none (h : Effect cfg now s p q t)
    (hk : s.refreshTokens k = none) (hp : ¬ p.holds s.users k) : t.refreshTokens k = none := by
  cases h with
  | saved =>
      have hne : k ≠ _ := fun e => hp e.symm
      simpa [saveRefreshToken, Function.update_of_ne hne] using hk
  | expired => simp [deleteRefreshToken, Function.update_apply, hk]
  | loggedOut => simp [deleteRefreshToken, Function.update_apply, hk]
  | passwordChanged ht =>
      obtain ⟨row, -, -, hr⟩ := updateUserPassword_ok ht
      simp [hr, hk]
  | accountDeleted ht => simp [(deleteUserData_ok ht).2, hk]
  | _ => exact hk

theorem Effect.not_holds (h : Effect cfg now s p q t)
    (hk : s.refreshTokens k = none) (hp : ¬ p.holds s.users k) : ¬ q.holds t.users k := by
  cases h with
  | ended hq => exact hq _ _
  | @tokenRead token record hr =>
      rintro ⟨he, -⟩
      unfold getRefreshToken at hr
      split at hr
      · cases hr
      · rename_i row hrow
        cases hr
        have he : cfg.hashToken token = k := he
        rw [he, hk] at hrow
        cases hrow
  | @userRead token readAt record user hu =>
      intro he
      apply hp
      refine ⟨he, ?_⟩
      unfold getUserByID at hu
      split at hu
      · cases hu
      · simp [*]
  | _ => exact id

theorem step_call {s s' : System} {i : Nat}
    (h : step cfg s (.call i now fault) = some s') :
    ∃ p q t, s.handlers[i]? = some p ∧ Effect cfg now s.store p q t ∧
      (fault = true → t = s.store) ∧ s' = { store := t, handlers := s.handlers.set i q } := by
  simp only [step] at h
  cases hp : s.handlers[i]? with
  | none => simp [hp] at h
  | some p =>
      simp only [hp, Option.map_eq_some_iff] at h
      obtain ⟨⟨q, t⟩, hq, rfl⟩ := h
      obtain ⟨he, hf⟩ := advance_effect hq
      exact ⟨p, q, t, rfl, he, hf, rfl⟩

theorem step_gone {s s' : System} {e : Event} (hg : Gone k s) (h : step cfg s e = some s') :
    Gone k s' := by
  cases e with
  | receive request =>
      cases h
      refine ⟨hg.1, fun q hq => ?_⟩
      rcases List.mem_append.mp hq with hq | hq
      · exact hg.2 q hq
      · rw [List.mem_singleton.mp hq]
        exact not_holds_start request
  | call i now fault =>
      obtain ⟨p, q, t, hp, he, -, rfl⟩ := step_call h
      have hpk := hg.2 p (List.mem_of_getElem? hp)
      refine ⟨he.refreshTokens_none hg.1 hpk, fun r hr => ?_⟩
      rcases List.mem_or_eq_of_mem_set hr with hr | rfl
      · exact fun hold => hg.2 r hr (Handler.holds_mono he.users_isSome hold)
      · exact he.not_holds hg.1 hpk

theorem Effect.revokes (h : Effect cfg now s p q t) (hr : p.isRevocation)
    {row : RefreshTokenRow} (hk : s.refreshTokens k = some row) (hn : t.refreshTokens k = none) :
    p.revokes cfg now s k row ∧ (∀ users, ¬ q.holds users k) ∧
      ∀ u, (t.users u).isSome = (p.usersLeft s.users u).isSome := by
  cases h with
  | ended hq => simp [hk] at hn
  | tokenRead hr => cases hr
  | userRead hu => cases hr
  | saved => cases hr
  | expired => cases hr
  | @loggedOut tokenHash =>
      refine ⟨?_, fun _ => id, fun _ => rfl⟩
      by_contra hne
      simp [deleteRefreshToken, Function.update_of_ne hne, hk] at hn
  | @passwordChanged user new keep t ht =>
      obtain ⟨urow, hc, -, htok⟩ := updateUserPassword_ok ht
      refine ⟨⟨by simp [hc, Except.isOk, Except.toBool], ?_⟩, fun _ => id, updateUserPassword_users ht⟩
      simpa [htok, hk] using hn
  | @accountDeleted userID t ht =>
      obtain ⟨hu, htok⟩ := deleteUserData_ok ht
      refine ⟨?_, fun _ => id, fun u => by rw [hu]; rfl⟩
      simpa [Handler.revokes, htok, hk] using hn

/-- Once `logout`, `changePassword` or `deleteAccount` has removed a token, it is not there in any
later state. -/
def RevocationFinal (cfg : Config) (s₀ : System) : Prop :=
  ∀ (before after : List Event) (s₁ s₂ s₃ : System) (i : Nat) (now : Int) (fault : Bool)
    (p : Handler) (tokenHash : String),
    run (step cfg) s₀ before = some s₁ → s₁.handlers[i]? = some p → p.isRevocation →
    s₁.store.refreshTokens tokenHash ≠ none → step cfg s₁ (.call i now fault) = some s₂ →
    s₂.store.refreshTokens tokenHash = none → run (step cfg) s₂ after = some s₃ →
    s₃.store.refreshTokens tokenHash = none

theorem Effect.gone {s : System} {i : Nat} (h : Effect cfg now s.store p q t)
    (hr : p.isRevocation) {row : RefreshTokenRow} (hk : s.store.refreshTokens k = some row)
    (hn : t.refreshTokens k = none)
    (hfree : ∀ r ∈ s.handlers, ¬ r.holds (p.usersLeft s.store.users) k) :
    Gone k ⟨t, s.handlers.set i q⟩ := by
  obtain ⟨-, hq, hu⟩ := h.revokes hr hk hn
  refine ⟨hn, fun r hmem => ?_⟩
  rcases List.mem_or_eq_of_mem_set hmem with hmem | rfl
  · exact fun hold => hfree r hmem (Handler.holds_mono (fun u hs => by rwa [← hu u]) hold)
  · exact hq _

theorem step_revocation_gone {s s' : System} {i : Nat} (hp : s.handlers[i]? = some p)
    (hr : p.isRevocation) (hk : s.store.refreshTokens k ≠ none)
    (h : step cfg s (.call i now fault) = some s') (hn : s'.store.refreshTokens k = none)
    (hok : NoPendingSave cfg s (.call i now fault)) : Gone k s' := by
  obtain ⟨p', q, t, hp', he, hf, rfl⟩ := step_call h
  obtain rfl : p = p' := by simpa [hp] using hp'
  obtain ⟨row, hrow⟩ := Option.ne_none_iff_exists'.mp hk
  have hfault : fault = false := by
    cases fault with
    | false => rfl
    | true =>
        rw [hf rfl] at hn
        exact absurd hn hk
  exact he.gone hr hrow hn (hok p k row hfault hp hrow (he.revokes hr hrow hn).1)

theorem step_of_advance {s : System} {i : Nat} (hp : s.handlers[i]? = some p)
    (h : p.advance cfg now fault s.store = some (q, t)) :
    step cfg s (.call i now fault) = some ⟨t, s.handlers.set i q⟩ := by
  simp [step, hp, h]

theorem refreshSave_restores (cfg : Config) {s : System} {token : String} {user : User}
    {record : RefreshToken} (hq : .refreshSave token user record ∈ s.handlers) :
    ∃ after s', run (step cfg) s after = some s' ∧
      s'.store.refreshTokens record.tokenHash ≠ none := by
  obtain ⟨j, hj⟩ := List.mem_iff_getElem?.mp hq
  have hs : step cfg s (.call j 0 false) = some ⟨saveRefreshToken record s.store,
      s.handlers.set j (.issued token record.expiresAt)⟩ := step_of_advance hj rfl
  exact ⟨[.call j 0 false], _, run_cons.mpr ⟨_, hs, rfl⟩, by simp [saveRefreshToken]⟩

theorem holding_handler_restores (cfg : Config) {s : System} (hq : q ∈ s.handlers)
    (hold : q.holds s.store.users k) :
    ∃ after s', run (step cfg) s after = some s' ∧ s'.store.refreshTokens k ≠ none := by
  cases q with
  | refreshSave token user record =>
      obtain rfl : record.tokenHash = k := hold
      exact refreshSave_restores cfg hq
  | refreshUser token readAt record =>
      obtain ⟨rfl, hu⟩ := hold
      obtain ⟨row, hu⟩ := Option.isSome_iff_exists.mp hu
      obtain ⟨j, hj⟩ := List.mem_iff_getElem?.mp hq
      have ha : (Handler.refreshUser token readAt record).advance cfg 0 false s.store =
          some (.refreshSave token ⟨record.userID, row.email, row.passwordHash⟩
            (renew cfg readAt record), s.store) := by
        simp [Handler.advance, getUserByID, hu]
      have hlt : j < s.handlers.length := (List.getElem?_eq_some_iff.mp hj).1
      obtain ⟨after, s', hrun, hback⟩ := refreshSave_restores cfg (s := ⟨s.store, _⟩)
        (List.mem_set hlt (.refreshSave token ⟨record.userID, row.email, row.passwordHash⟩
            (renew cfg readAt record)))
      exact ⟨.call j 0 false :: after, s', run_cons.mpr ⟨_, step_of_advance hj ha, hrun⟩, hback⟩
  | _ => exact hold.elim

theorem revocation_final_iff {s s' : System} {i : Nat} {row : RefreshTokenRow}
    (hp : s.handlers[i]? = some p) (hr : p.isRevocation)
    (hk : s.store.refreshTokens k = some row)
    (h : step cfg s (.call i now fault) = some s') (hn : s'.store.refreshTokens k = none) :
    (∀ after s'', run (step cfg) s' after = some s'' → s''.store.refreshTokens k = none) ↔
      ∀ q ∈ s.handlers, ¬ q.holds (p.usersLeft s.store.users) k := by
  obtain ⟨p', q, t, hp', he, -, rfl⟩ := step_call h
  obtain rfl : p = p' := by simpa [hp] using hp'
  obtain ⟨-, -, hu⟩ := he.revokes hr hk hn
  constructor
  · intro hfinal r hmem hold
    obtain ⟨j, hj⟩ := List.mem_iff_getElem?.mp hmem
    have hne : i ≠ j := by
      rintro rfl
      obtain rfl : p = r := by simpa [hp] using hj
      cases p <;> first | exact hold.elim | cases hr
    have hmem : r ∈ s.handlers.set i q :=
      List.mem_of_getElem? (by rwa [List.getElem?_set_ne hne])
    obtain ⟨after, s'', hrun, hback⟩ := holding_handler_restores cfg (s := ⟨t, _⟩)
      hmem (Handler.holds_mono (fun u hs => by rwa [hu u]) hold)
    exact hback (hfinal after s'' hrun)
  · intro hfree after s'' hrun
    exact (run_invariant (fun _ _ _ => step_gone) (he.gone hr hk hn hfree) hrun : Gone k s'').1

theorem revoked_token_stays_removed (cfg : Config) (s₀ : System) (before after : List Event)
    (i : Nat) (now : Int) (fault : Bool) (tokenHash : String) {s₁ s₂ s₃ : System} {p : Handler}
    (hb : run (step cfg) s₀ before = some s₁)
    (hp : s₁.handlers[i]? = some p) (hr : p.isRevocation)
    (hk : s₁.store.refreshTokens tokenHash ≠ none)
    (hs : step cfg s₁ (.call i now fault) = some s₂)
    (hn : s₂.store.refreshTokens tokenHash = none) (ha : run (step cfg) s₂ after = some s₃)
    (hok : Admissible (NoPendingSave cfg) (step cfg) s₀ (before ++ .call i now fault :: after)) :
    s₃.store.refreshTokens tokenHash = none ∧
      ∀ j refreshToken readAt fault, s₃.handlers[j]? = some (.refresh refreshToken) →
        cfg.hashToken refreshToken = tokenHash →
          step cfg s₃ (.call j readAt fault) = some { s₃ with
            handlers := s₃.handlers.set j (.finished (.error .invalidCredentials)) } := by
  have hgone : Gone tokenHash s₂ :=
    step_revocation_gone hp hr hk hs hn (hok.append_right hb).1
  have hlast : Gone tokenHash s₃ := run_invariant (fun _ _ _ => step_gone) hgone ha
  refine ⟨hlast.1, fun j token readAt fault hj ht => ?_⟩
  cases fault with
  | true => simp [step, hj, Handler.advance]
  | false => simp [step, hj, Handler.advance, getRefreshToken, ht, hlast.1]

def sampleHashToken (raw : String) : String :=
  if raw = "laptop" then "5eec0dc419aa8337bf725f026fda9c78c1cb1c642eeaff9d6e1112f37783e942"
  else if raw = "phone" then "45569da57f4b7bf472d7a864ef4781451cae6383fee9fb0ae40c59aa1ce475b7"
  else ""

def sampleConfig : Config where
  sqlite := false
  localAuthEnabled := true
  refreshTokenIdleTTL := 1209600
  hashToken := sampleHashToken
  compareHashAndPassword _ _ := false
  generateFromPassword _ _ := none
  sameEmail a b := a == b

def sampleSystem : System where
  store :=
    { users := fun id => if id = "u1" then some ⟨"u1@example.com", ""⟩ else none
      refreshTokens := fun h =>
        if h = sampleHashToken "laptop" then some ⟨"u1", 1000, 0, none, none⟩
        else if h = sampleHashToken "phone" then some ⟨"u1", 1000, 0, none, none⟩
        else none
      exchangeCodes := fun _ => none
      authIdentities := [] }
  handlers := []

/-- A logout, then a `refresh` with the token it removed. -/
theorem revoked_token_stays_removed_laptop :
    ∃ s, run (step sampleConfig) sampleSystem
        [.receive (.logout "laptop"), .call 0 20 false, .receive (.refresh "laptop")] = some s ∧
      s.store.refreshTokens (sampleHashToken "laptop") = none := by
  refine ⟨_, rfl, ?_⟩
  refine (revoked_token_stays_removed sampleConfig sampleSystem [.receive (.logout "laptop")]
    [.receive (.refresh "laptop")] 0 20 false (sampleHashToken "laptop") rfl rfl rfl nofun rfl rfl rfl ?_).1
  refine ⟨trivial, fun t ht => ⟨?_, fun u _ => ⟨trivial, fun _ _ => trivial⟩⟩⟩
  cases ht
  intro p h row _ _ _ _ q hq
  rw [List.mem_singleton.mp hq]
  exact id

theorem revocation_final_iff_laptop :
    ∃ s s', run (step sampleConfig) sampleSystem [.receive (.logout "laptop")] = some s ∧
      step sampleConfig s (.call 0 20 false) = some s' ∧
      ∀ after s'', run (step sampleConfig) s' after = some s'' →
        s''.store.refreshTokens (sampleHashToken "laptop") = none := by
  have hstep : step sampleConfig ⟨sampleSystem.store, [.logout (sampleHashToken "laptop")]⟩
      (.call 0 20 false) = some _ := rfl
  refine ⟨_, _, rfl, hstep, (revocation_final_iff rfl rfl rfl hstep rfl).mpr ?_⟩
  intro q hq
  rw [List.mem_singleton.mp hq]
  exact id

/-- The save of a `refresh` that read its token before the logout brings the token back. -/
theorem revocation_undone_by_refresh : ¬ RevocationFinal sampleConfig sampleSystem := by
  intro h
  have hgone := h
    [.receive (.refresh "laptop"), .call 0 10 false, .call 0 10 false,
      .receive (.logout "laptop")] [.call 0 30 false] _ _ _ 1 20 false
    (.logout (sampleHashToken "laptop")) (sampleHashToken "laptop")
    rfl rfl rfl nofun rfl rfl rfl
  cases hgone

end Dolgate.RefreshTokens
