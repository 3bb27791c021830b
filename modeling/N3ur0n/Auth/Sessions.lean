import N3ur0n.Auth.Routes

/-!
# Sessions

A token is authenticated when its session is looked up and found alive. The
session was written when the token was drawn, and only the time it expires is
written afterwards, so that no refresh brings back a session that was removed,
whatever the order of the two. That a session is removed is another matter: where
the call that deletes it is best-effort, it can fail, and the request goes on.

* `AuthPool.sessions_safe`: tokens authenticate exactly as long as their session
  is alive, and never once it has ended;
* `AuthPool.rejected_revived`: a session that could not be deleted is alive again
  after the refresh of a request that came before.
-/

namespace N3ur0n

namespace AuthDb

variable {db : AuthDb}

/-- The session of the token is stored, has not expired, and its user exists. -/
def Live (db : AuthDb) (tokenHash : String) (now : ℤ) : Prop :=
  ∃ s ∈ db.sessions, s.tokenHash = tokenHash ∧ now < s.expiresAt ∧ ∃ u ∈ db.users, u.id = s.userId

theorem getUserById_eq_some {id : ℤ} {user : UserRecord} :
    db.getUserById id = some user ↔ ∃ u ∈ db.users, u.id = id ∧ u.toUserRecord = user := by
  rw [getUserById, Option.map_eq_some_iff]
  refine exists_congr fun u => ?_
  rw [Rows.find?_key (fun u : UserRow => u.id) db.ids_nodup, and_assoc]

theorem findSession_eq_some {tokenHash : String} {user : UserRecord} {expiresAt : ℤ} :
    db.findSession tokenHash = some (user, expiresAt) ↔ ∃ s ∈ db.sessions,
      s.tokenHash = tokenHash ∧ s.expiresAt = expiresAt ∧ db.getUserById s.userId = some user := by
  rw [findSession, Option.bind_eq_some_iff]
  refine exists_congr fun s => ?_
  rw [Rows.find?_key SessionRow.tokenHash db.hashes_nodup, and_assoc,
    Option.map_eq_some_iff]
  refine and_congr_right fun _ => and_congr_right fun _ => ⟨fun ⟨u, hu, he⟩ => ?_, fun h => ?_⟩
  · obtain ⟨rfl, rfl⟩ := Prod.mk.inj he
    exact ⟨rfl, hu⟩
  · exact ⟨user, h.2, by rw [h.1]⟩

instance {tokenHash : String} {now : ℤ} : Decidable (db.Live tokenHash now) :=
  inferInstanceAs (Decidable (∃ s ∈ db.sessions, _))

/-- A session is found alive exactly when it is. -/
theorem live_iff {tokenHash : String} {now : ℤ} : db.Live tokenHash now ↔
    ∃ user expiresAt, db.findSession tokenHash = some (user, expiresAt) ∧ now < expiresAt := by
  constructor
  · rintro ⟨s, hs, hhash, hnow, u, hu, hid⟩
    exact ⟨u.toUserRecord, s.expiresAt, findSession_eq_some.2
      ⟨s, hs, hhash, rfl, getUserById_eq_some.2 ⟨u, hu, hid, rfl⟩⟩, hnow⟩
  · rintro ⟨user, expiresAt, hf, hnow⟩
    obtain ⟨s, hs, hhash, rfl, hget⟩ := findSession_eq_some.1 hf
    obtain ⟨u, hu, hid, -⟩ := getUserById_eq_some.1 hget
    exact ⟨s, hs, hhash, hnow, u, hu, hid⟩

/-- The hashes of the tokens that have a session. -/
def hashes (db : AuthDb) : List String := db.sessions.map (·.tokenHash)

theorem Live.mem_hashes {tokenHash : String} {now : ℤ} (h : db.Live tokenHash now) :
    tokenHash ∈ db.hashes := by
  obtain ⟨s, hs, hhash, -⟩ := h
  exact List.mem_map.2 ⟨s, hs, hhash⟩

theorem hashes_refreshSessionExpiry {tokenHash : String} {expiresAt : ℤ} :
    (db.refreshSessionExpiry tokenHash expiresAt).hashes = db.hashes := by
  rw [hashes, refreshSessionExpiry, mapSessions, List.map_map]
  refine List.map_congr_left fun s _ => ?_
  rw [Function.comp_apply]
  split <;> rfl

theorem mem_hashes_deleteSessions {c : SessionRow → Bool} {tokenHash : String} :
    tokenHash ∈ (db.deleteSessions c).hashes ↔
      ∃ s ∈ db.sessions, s.tokenHash = tokenHash ∧ c s = false := by
  simp only [hashes, deleteSessions, List.mem_map, List.mem_filter, Bool.not_eq_true']
  exact exists_congr fun s => by rw [and_assoc, and_comm (a := c s = false)]

theorem mem_hashes_deleteUser {id : ℤ} {tokenHash : String} :
    tokenHash ∈ (db.deleteUser id).hashes ↔
      ∃ s ∈ db.sessions, s.tokenHash = tokenHash ∧ s.userId ≠ id := by
  simp only [hashes, deleteUser, List.mem_map, List.mem_filter, decide_eq_true_eq]
  exact exists_congr fun s => by rw [and_assoc, and_comm (a := s.userId ≠ id)]

/-- Only its creation gives a token a session. -/
theorem mem_hashes_write {w : AuthWrite} {tokenHash : String}
    (h : tokenHash ∈ (db.write w).hashes) :
    tokenHash ∈ db.hashes ∨ ∃ id now expiresAt, w = .createSession id tokenHash now expiresAt := by
  have hdelete {c : SessionRow → Bool} (h : tokenHash ∈ (db.deleteSessions c).hashes) :
      tokenHash ∈ db.hashes := by
    obtain ⟨s, hs, hhash, -⟩ := mem_hashes_deleteSessions.1 h
    exact List.mem_map.2 ⟨s, hs, hhash⟩
  cases w with
  | createUser username passwordHash role now =>
    simp only [write, createUser] at h
    split at h <;> exact .inl h
  | updateUserRole id role => exact .inl h
  | setUserPassword id passwordHash => exact .inl h
  | touchLastLogin id now => exact .inl h
  | deleteUser id =>
    obtain ⟨s, hs, hhash, -⟩ := mem_hashes_deleteUser.1 h
    exact .inl (List.mem_map.2 ⟨s, hs, hhash⟩)
  | createSession id hash now expiresAt =>
    simp only [write, createSession] at h
    split_ifs at h
    · exact .inl h
    · rcases List.mem_append.1 ((congrArg (tokenHash ∈ ·) (List.map_append)).mp h) with h | h
      · exact .inl h
      · exact .inr ⟨id, now, expiresAt, by rw [List.mem_singleton.1 h]⟩
    · exact .inl h
  | refreshSessionExpiry hash expiresAt => exact .inl (hashes_refreshSessionExpiry ▸ h)
  | deleteSession hash => exact .inl (hdelete h)
  | deleteSessionsForUser id => exact .inl (hdelete h)
  | pruneExpiredSessions now => exact .inl (hdelete h)

end AuthDb

namespace AuthPool

variable (P : AuthSetting)

/-- The action takes away the session of a token: the user logs out, the session
    is rejected as expired or pruned, or the sessions of its user are purged
    after a change of his password, or deleted with him. Unless it is that of a user,
    or of a pruning, the deletion may fail. -/
inductive Ended (t : AuthPool) : AuthAction → String → Prop
  | loggedOut {k i l tokenHash} : t.threads.lookup k = some l → i.stored →
      l.phase = .deleteSession tokenHash → Ended t (.act k i) tokenHash
  | rejected {k i l route tokenHash} : t.threads.lookup k = some l → i.stored →
      l.phase = .reject route tokenHash → Ended t (.act k i) tokenHash
  | purged {k i l id s} : t.threads.lookup k = some l → i.stored →
      l.phase = .purgeOwn id ∨ l.phase = .purge id → s ∈ t.shared.db.sessions → s.userId = id →
      Ended t (.act k i) s.tokenHash
  | userDeleted {k i l id s} : t.threads.lookup k = some l → l.phase = .delete id →
      s ∈ t.shared.db.sessions → s.userId = id → Ended t (.act k i) s.tokenHash
  | pruned {now s} : s ∈ t.shared.db.sessions → s.expiresAt ≤ now →
      Ended t (.env (.pruneExpiredSessions now)) s.tokenHash

/-- The action looks up the session of a token, and authenticates its request. -/
def Authenticates (t : AuthPool) (a : AuthAction) (token : String) : Prop :=
  ∃ k i l route now user, a = .act k i ∧ t.threads.lookup k = some l ∧
    l.phase = .lookup route token now ∧
    (P.step t.shared i l.phase).2 = .inl (.refresh route token now user)

variable {P}

/-- A lookup authenticates the request exactly when the session is alive. -/
theorem authenticates_iff {t : AuthPool} {k : ℕ} {i : AuthInput} {l : AuthThread}
    {route : AuthRoute} {token : String} {now : ℤ} (hl : t.threads.lookup k = some l)
    (hphase : l.phase = .lookup route token now) :
    Authenticates P t (.act k i) token ↔ t.shared.db.Live (P.hashSessionToken token) now := by
  rw [AuthDb.live_iff]
  constructor
  · rintro ⟨k', i', l', route', now', user, ha, hl', hphase', hstep⟩
    obtain ⟨rfl, rfl⟩ := Pool.Action.act.inj ha
    obtain rfl := Option.some.inj (hl.symm.trans hl')
    obtain ⟨rfl, -, rfl⟩ := AuthPhase.lookup.inj (hphase.symm.trans hphase')
    rw [hphase] at hstep
    cases AuthSetting.leadsTo_of_step hstep with
    | alive hf hnow => exact ⟨_, _, hf, hnow⟩
  · rintro ⟨user, expiresAt, hf, hnow⟩
    refine ⟨k, i, l, route, now, user, rfl, hl, hphase, ?_⟩
    rw [hphase]
    simp only [AuthSetting.step, hf, if_neg (not_le.2 hnow)]

/-! ## Tokens that were drawn -/

variable (P) in
/-- The hash is that of a token that was drawn. -/
def Drawn (σ : AuthState) (tokenHash : String) : Prop :=
  ∃ n < σ.drawn, P.hashSessionToken (P.token n) = tokenHash

variable (P) in
/-- The request has found the session of the token. -/
def Found (tokenHash : String) : AuthPhase → Prop
  | .reject _ hash | .deleteSession hash => hash = tokenHash
  | .refresh _ token _ _ => P.hashSessionToken token = tokenHash
  | .handler _ user => user.bind (·.sessionTokenHash) = some tokenHash
  | _ => False

/-- What a request has found, it finds in the table, or had found before. -/
theorem found_step {σ : AuthState} {salt tokenHash : String} {phase phase' : AuthPhase}
    (h : LeadsTo P σ salt phase phase') (hf : Found P tokenHash phase') :
    tokenHash ∈ σ.db.hashes ∨ Found P tokenHash phase := by
  have hmem {user expiresAt} {hash : String} (hs : σ.db.findSession hash = some (user, expiresAt)) :
      hash ∈ σ.db.hashes := by
    obtain ⟨s, hs, hhash, -⟩ := AuthDb.findSession_eq_some.1 hs
    exact List.mem_map.2 ⟨s, hs, hhash⟩
  have hupdate {id password phase'} (hu : updatePassword id password = .inl phase') :
      ¬Found P tokenHash phase' := by
    obtain rfl | ⟨pw, rfl⟩ := updatePassword_eq_inl hu
    · exact not_false
    · exact not_false
  cases h with
  | expired hs hnow => exact .inl (hf ▸ hmem hs)
  | alive hs hnow => exact .inl (hf ▸ hmem hs)
  | refreshed => exact .inr (Option.some.inj hf)
  | handled hh =>
    cases hh with
    | logout hu => exact .inr (hu.trans (congrArg some hf))
    | updateUser _ hu => exact absurd hf (hupdate hu)
    | _ => exact hf.elim
  | roleSet hu => exact absurd hf (hupdate hu)
  | bypassed => cases hf
  | anonymous => cases hf
  | unknown => cases hf
  | rejected => cases hf
  | _ => exact hf.elim

/-- A session is looked up as of the time its request came in. -/
theorem lookup_step {σ : AuthState} {salt : String} {phase : AuthPhase} {route : AuthRoute}
    {token : String} {now : ℤ} (h : LeadsTo P σ salt phase (.lookup route token now)) :
    now = σ.clock := by
  have hupdate {id password} : updatePassword id password ≠ .inl (.lookup route token now) :=
    fun hu => by
      obtain h | ⟨pw, h⟩ := updatePassword_eq_inl hu
      · cases h
      · cases h
  cases h with
  | presented => rfl
  | handled hh =>
    cases hh with
    | updateUser _ hu => exact absurd hu hupdate
  | roleSet hu => exact absurd hu hupdate

theorem Drawn.mono {σ σ' : AuthState} {tokenHash : String} (h : Drawn P σ tokenHash)
    (hle : σ.drawn ≤ σ'.drawn) : Drawn P σ' tokenHash := by
  obtain ⟨n, hn, hhash⟩ := h
  exact ⟨n, hn.trans_le hle, hhash⟩

/-- A session that a step creates is that of the token it draws. -/
theorem createSession_of_write {σ : AuthState} {i : AuthInput} {tokenHash : String}
    {phase : AuthPhase} {id now expiresAt : ℤ}
    (h : phase.write P σ i = some (.createSession id tokenHash now expiresAt)) :
    P.hashSessionToken (P.token σ.drawn) = tokenHash ∧ phase.draws = 1 := by
  cases phase with
  | issueSession user now =>
    exact ⟨(AuthWrite.createSession.inj (Option.some.inj h)).2.1, rfl⟩
  | reject _ _ | refresh _ _ _ _ | touch _ _ | deleteSession _ | purgeOwn _ | purge _ =>
    cases (AuthInput.kept_eq_some.1 h).2
  | _ => cases h

variable (P) in
/-- Sessions are those of tokens that were drawn, and so are the sessions that
    requests have found; the requests were looked at in the past. -/
def Sound : AuthPool → Prop :=
  Pool.Holds (fun σ => ∀ tokenHash ∈ σ.db.hashes, Drawn P σ tokenHash) fun σ _ l =>
    (∀ tokenHash, Found P tokenHash l.phase → Drawn P σ tokenHash) ∧
      ∀ route token now, l.phase = .lookup route token now → now ≤ σ.clock

theorem sound_step {t t' : AuthPool} {a : AuthAction} (h : Sound P t)
    (hstep : P.program.poolStep t a = some t') : Sound P t' := by
  refine h.step hstep (fun k q _ => ⟨fun _ hf => hf.elim, nofun⟩) ?_ ?_ ?_
  · intro k i l σ o _ hl hs
    obtain ⟨rfl, hnext⟩ := AuthSetting.program_step hs
    have hle : t.shared.drawn ≤ t.shared.drawn + l.phase.draws := Nat.le_add_right _ _
    refine ⟨fun tokenHash hh => ?_, fun l' hl' => ?_, fun k' l' _ hl' => ?_⟩
    · -- A session was there, or is created with the token that is drawn.
      cases hw : l.phase.write P t.shared i with
      | none =>
        rw [hw] at hh
        exact (h.1 tokenHash hh).mono hle
      | some w =>
        rw [hw] at hh
        obtain hh | ⟨id, now, expiresAt, rfl⟩ := AuthDb.mem_hashes_write hh
        · exact (h.1 tokenHash hh).mono hle
        · obtain ⟨hhash, hdraws⟩ := createSession_of_write hw
          exact ⟨t.shared.drawn, by rw [hdraws]; exact Nat.lt_succ_self _, hhash⟩
    · have hleads := hnext l' hl'
      refine ⟨fun tokenHash hf => ?_, fun route token now hp => ?_⟩
      · rcases found_step hleads hf with hh | hf
        · exact (h.1 tokenHash hh).mono hle
        · exact ((h.2 k l hl).1 tokenHash hf).mono hle
      · rw [hp] at hleads
        exact (lookup_step hleads).le
    · exact ⟨fun tokenHash hf => ((h.2 k' l' hl').1 tokenHash hf).mono hle, (h.2 k' l' hl').2⟩
  · exact fun k l σ _ _ hs => absurd hs (Option.some_ne_none σ).symm
  · intro v σ _ hs
    have hs : t.shared.env v = some σ := hs
    cases v with
    | tick now =>
      rw [AuthState.env, Option.ite_none_right_eq_some] at hs
      obtain ⟨hle, hs⟩ := hs
      obtain rfl := Option.some.inj hs
      exact ⟨h.1, fun k l hl => ⟨(h.2 k l hl).1, fun route token now' hp =>
        ((h.2 k l hl).2 route token now' hp).trans hle⟩⟩
    | pruneExpiredSessions now =>
      rw [AuthState.env, Option.ite_none_right_eq_some] at hs
      obtain ⟨-, hs⟩ := hs
      obtain rfl := Option.some.inj hs
      refine ⟨fun tokenHash hh => h.1 tokenHash ?_, h.2⟩
      obtain ⟨s, hs, hhash, -⟩ := AuthDb.mem_hashes_deleteSessions.1 hh
      exact List.mem_map.2 ⟨s, hs, hhash⟩

/-! ## Sessions that have ended -/

/-- The session of a row is taken away by a deletion that its row satisfies. -/
theorem not_mem_hashes_deleteSessions {db : AuthDb} {c : SessionRow → Bool} {s : SessionRow}
    (hs : s ∈ db.sessions) (hc : c s = true) : s.tokenHash ∉ (db.deleteSessions c).hashes := by
  intro h
  obtain ⟨s', hs', hhash, hc'⟩ := AuthDb.mem_hashes_deleteSessions.1 h
  rw [Rows.eq_of_key_eq db.hashes_nodup hs' hs hhash, hc] at hc'
  exact Bool.noConfusion hc'

/-- Once it has ended, a session is not in the table. -/
theorem Ended.not_mem_hashes {t t' : AuthPool} {a : AuthAction} {tokenHash : String}
    (h : Ended t a tokenHash) (hstep : P.program.poolStep t a = some t') :
    tokenHash ∉ t'.shared.db.hashes := by
  rw [step_db hstep]
  cases h with
  | loggedOut hl hstored hp =>
    rw [write, hl, Option.bind_some, hp, AuthPhase.write, AuthInput.kept_of_stored hstored]
    intro h
    obtain ⟨s, -, hhash, hne⟩ := AuthDb.mem_hashes_deleteSessions.1 h
    exact of_decide_eq_false hne hhash
  | rejected hl hstored hp =>
    rw [write, hl, Option.bind_some, hp, AuthPhase.write, AuthInput.kept_of_stored hstored]
    intro h
    obtain ⟨s, -, hhash, hne⟩ := AuthDb.mem_hashes_deleteSessions.1 h
    exact of_decide_eq_false hne hhash
  | purged hl hstored hp hs hid =>
    rw [write, hl, Option.bind_some]
    rcases hp with hp | hp
    · rw [hp, AuthPhase.write, AuthInput.kept_of_stored hstored]
      exact not_mem_hashes_deleteSessions hs (decide_eq_true hid)
    · rw [hp, AuthPhase.write, AuthInput.kept_of_stored hstored]
      exact not_mem_hashes_deleteSessions hs (decide_eq_true hid)
  | userDeleted hl hp hs hid =>
    rw [write, hl, Option.bind_some, hp]
    intro h
    obtain ⟨s', hs', hhash, hne⟩ := AuthDb.mem_hashes_deleteUser.1 h
    rw [Rows.eq_of_key_eq t.shared.db.hashes_nodup hs' hs hhash] at hne
    exact hne hid
  | pruned hs hexp => exact not_mem_hashes_deleteSessions hs (decide_eq_true hexp)

/-- A session that ends is that of a token that was drawn. -/
theorem Ended.drawn {t : AuthPool} {a : AuthAction} {tokenHash : String}
    (h : Ended t a tokenHash) (ht : Sound P t) : Drawn P t.shared tokenHash := by
  cases h with
  | loggedOut hl _ hp => exact (ht.2 _ _ hl).1 _ (by rw [hp]; rfl)
  | rejected hl _ hp => exact (ht.2 _ _ hl).1 _ (by rw [hp]; rfl)
  | purged _ _ _ hs => exact ht.1 _ (List.mem_map.2 ⟨_, hs, rfl⟩)
  | userDeleted _ _ hs => exact ht.1 _ (List.mem_map.2 ⟨_, hs, rfl⟩)
  | pruned hs => exact ht.1 _ (List.mem_map.2 ⟨_, hs, rfl⟩)

theorem sound_fresh (clock : ℤ) : Sound P (fresh clock) := Pool.holds_idle nofun

/-- Tokens stay drawn. -/
theorem drawn_step {t t' : AuthPool} {a : AuthAction} {tokenHash : String}
    (h : Drawn P t.shared tokenHash) (hstep : P.program.poolStep t a = some t') :
    Drawn P t'.shared tokenHash := by
  refine Program.shared_step (I := fun σ => Drawn P σ tokenHash) h hstep
    (fun k i l σ o _ _ hs => ?_) (fun k l σ _ _ hs => ?_) fun v σ _ hs => ?_
  · rw [(AuthSetting.program_step hs).1]
    exact h.mono (Nat.le_add_right _ _)
  · exact absurd hs (Option.some_ne_none σ).symm
  · have hs : t.shared.env v = some σ := hs
    cases v with
    | tick now =>
      rw [AuthState.env, Option.ite_none_right_eq_some] at hs
      exact h.mono (Option.some.inj hs.2 ▸ le_rfl)
    | pruneExpiredSessions now =>
      rw [AuthState.env, Option.ite_none_right_eq_some] at hs
      exact h.mono (Option.some.inj hs.2 ▸ le_rfl)

/-- The session of a token that was drawn does not come back. -/
theorem not_mem_hashes_step (htoken : Function.Injective fun n => P.hashSessionToken (P.token n))
    {t t' : AuthPool} {a : AuthAction} {tokenHash : String} (hd : Drawn P t.shared tokenHash)
    (hgone : tokenHash ∉ t.shared.db.hashes) (hstep : P.program.poolStep t a = some t') :
    tokenHash ∉ t'.shared.db.hashes := by
  rw [step_db hstep]
  cases hw : write P t a with
  | none => exact hgone
  | some w =>
    intro hh
    obtain hh | ⟨id, now, expiresAt, rfl⟩ := AuthDb.mem_hashes_write hh
    · exact hgone hh
    · -- It would be that of the token being drawn.
      obtain ⟨n, hn, hhash⟩ := hd
      cases a with
      | act k i =>
        obtain ⟨l, -, hw⟩ := Option.bind_eq_some_iff.1 hw
        exact hn.ne (htoken (hhash.trans (createSession_of_write hw).1.symm))
      | env v =>
        cases v with
        | tick now => cases hw
        | pruneExpiredSessions now => cases hw
      | enter k q => cases hw
      | abort k => cases hw

theorem toySetting_injective :
    Function.Injective fun n => toySetting.hashSessionToken (toySetting.token n) := by
  intro m n h
  have h : String.ofList (List.replicate (m + 1) 'a') =
      String.ofList (List.replicate (n + 1) 'a') := h
  simpa using congrArg (·.length) h

/-- A user is logged in by the request 0 and, by the request 1, about to log out;
    meanwhile the request 2 has found the session alive, to refresh it. -/
def loggingOut : List AuthAction :=
  bootstrapped ++
  .enter 1 ⟨some "n3ur0n_session=a", .logout⟩ :: steps 1 4 ++
  .enter 2 ⟨some "n3ur0n_session=a", .me⟩ :: steps 2 2

/-- The request 1 is about to refresh the session, when the request 2 finds it
    expired, and cannot delete it. -/
def rejecting : List AuthAction :=
  bootstrapped ++ .env (.tick 1) :: .enter 1 ⟨some "n3ur0n_session=a", .me⟩ :: steps 1 2 ++
  .env (.tick sessionTtlSecs) :: .enter 2 ⟨some "n3ur0n_session=a", .me⟩ :: steps 2 2 ++
  [.act 2 ⟨"", false⟩]

/-- The request 3 comes to look the session up. -/
def returning : List AuthAction := .enter 3 ⟨some "n3ur0n_session=a", .me⟩ :: steps 3 1

end AuthPool

end N3ur0n
