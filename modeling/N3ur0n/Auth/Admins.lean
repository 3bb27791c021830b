import N3ur0n.Auth.Routes

/-!
# Administrators

The first administrator is created when there is no user yet, and there should
be one from then on. What ensures it is checked in one step and written in
another, or not checked at all:

* `AuthPool.admin_remains`: there always is an administrator exactly when the
  check of a deletion has the same answer when it is made and when the user is
  deleted, and the last one is given no other role, which is not checked;
* `AuthPool.bootstrap_once`: one administrator at most is created without being
  authenticated, and before there are users, exactly when the users are as many at
  the creation as they were at the check.
-/

namespace N3ur0n

namespace AuthDb

variable {db : AuthDb}

/-! ## Who is an administrator -/

def HasAdmin (db : AuthDb) : Prop := ∃ u ∈ db.users, u.role = .admin

instance (db : AuthDb) : Decidable db.HasAdmin :=
  inferInstanceAs (Decidable (∃ u ∈ db.users, u.role = .admin))

theorem listUsers_perm : db.listUsers.Perm (db.users.map (·.toUserRecord)) :=
  List.perm_insertionSort _ _

theorem mem_listUsers {user : UserRecord} :
    user ∈ db.listUsers ↔ ∃ u ∈ db.users, u.toUserRecord = user := by
  rw [listUsers_perm.mem_iff, List.mem_map]

theorem admins_nodup :
    ((db.listUsers.filter (·.role = .admin)).map (·.id)).Nodup := by
  refine Rows.nodup_delete ?_ _
  rw [(listUsers_perm.map _).nodup_iff, List.map_map]
  exact db.ids_nodup

/-- The last administrator is the only one. -/
theorem isLastAdmin_iff {id : ℤ} : isLastAdmin db.listUsers id ↔
    (∃ u ∈ db.users, u.role = .admin ∧ u.id = id) ∧
      ∀ u ∈ db.users, u.role = .admin → u.id = id := by
  have hmem {user : UserRecord} : user ∈ db.listUsers.filter (·.role = .admin) ↔
      (∃ u ∈ db.users, u.toUserRecord = user) ∧ user.role = .admin := by
    rw [List.mem_filter, mem_listUsers, decide_eq_true_eq]
  rw [isLastAdmin, Bool.and_eq_true, decide_eq_true_eq, List.any_eq_true,
    Rows.length_le_one_iff admins_nodup]
  constructor
  · rintro ⟨hsame, user, huser, hid⟩
    have hid : user.id = id := of_decide_eq_true hid
    refine ⟨?_, fun u hu hadmin => ?_⟩
    · obtain ⟨⟨u, hu, rfl⟩, hadmin⟩ := hmem.1 huser
      exact ⟨u, hu, hadmin, hid⟩
    · exact (hsame _ (hmem.2 ⟨⟨u, hu, rfl⟩, hadmin⟩) _ huser).trans hid
  · rintro ⟨⟨u, hu, hadmin, hid⟩, hall⟩
    refine ⟨fun v hv w hw => ?_, u.toUserRecord, hmem.2 ⟨⟨u, hu, rfl⟩, hadmin⟩, decide_eq_true hid⟩
    obtain ⟨⟨v, hvu, rfl⟩, hva⟩ := hmem.1 hv
    obtain ⟨⟨w, hwu, rfl⟩, hwa⟩ := hmem.1 hw
    exact (hall v hvu hva).trans (hall w hwu hwa).symm

/-- As long as there is an administrator, another one than this user is there
    exactly if this user is not the last. -/
theorem not_isLastAdmin_iff {id : ℤ} (h : db.HasAdmin) :
    ¬isLastAdmin db.listUsers id ↔ ∃ u ∈ db.users, u.role = .admin ∧ u.id ≠ id := by
  rw [isLastAdmin_iff]
  constructor
  · intro hlast
    by_contra hnone
    have hall : ∀ u ∈ db.users, u.role = .admin → u.id = id := fun u hu hadmin =>
      by_contra fun hid => hnone ⟨u, hu, hadmin, hid⟩
    obtain ⟨u, hu, hadmin⟩ := h
    exact hlast ⟨⟨u, hu, hadmin, hall u hu hadmin⟩, hall⟩
  · rintro ⟨u, hu, hadmin, hid⟩ ⟨-, hall⟩
    exact hid (hall u hu hadmin)

end AuthDb

/-- A user is deleted, or given another role, only if he is not the last
    administrator. -/
def AuthWrite.SparesAdmin (db : AuthDb) : AuthWrite → Prop
  | .deleteUser id => ¬isLastAdmin db.listUsers id
  | .updateUserRole id role => role ≠ .admin → ¬isLastAdmin db.listUsers id
  | _ => True

namespace AuthDb

variable {db : AuthDb}

/-- Unless it changes his role, an update leaves an administrator in place. -/
theorem hasAdmin_updateUser {db' : AuthDb} {id : ℤ} {f : UserRow → UserRow}
    (hdb : db'.users = db.users.map fun u => if u.id = id then f u else u)
    (hf : ∀ u, u.role = .admin → (f u).role = .admin) (h : db.HasAdmin) : db'.HasAdmin := by
  obtain ⟨u, hu, hadmin⟩ := h
  refine ⟨_, hdb ▸ List.mem_map_of_mem hu, ?_⟩
  split
  · exact hf u hadmin
  · exact hadmin

/-- There still is an administrator after a write, exactly if it spares the last. -/
theorem hasAdmin_write_iff {w : AuthWrite} (h : db.HasAdmin) :
    (db.write w).HasAdmin ↔ w.SparesAdmin db := by
  cases w with
  | createUser username passwordHash role now =>
    refine iff_of_true ?_ trivial
    simp only [write, createUser]
    split
    · exact h
    · obtain ⟨u, hu, hadmin⟩ := h
      exact ⟨u, List.mem_append_left _ hu, hadmin⟩
  | updateUserRole id role =>
    rw [AuthWrite.SparesAdmin, not_isLastAdmin_iff h]
    constructor
    -- an administrator who is left is another one, if this one gets another role
    · rintro ⟨v, hv, hadmin⟩ hrole
      obtain ⟨u, hu, rfl⟩ := List.mem_map.1 hv
      split_ifs at hadmin with hid
      · exact absurd hadmin hrole
      · exact ⟨u, hu, hadmin, hid⟩
    · intro hspares
      by_cases hrole : role = .admin
      · exact hasAdmin_updateUser rfl (fun _ _ => hrole) h
      · obtain ⟨u, hu, hadmin, hid⟩ := hspares hrole
        exact ⟨u, List.mem_map.2 ⟨u, hu, if_neg hid⟩, hadmin⟩
  | setUserPassword id passwordHash =>
    exact iff_of_true (hasAdmin_updateUser rfl (fun _ hu => hu) h) trivial
  | touchLastLogin id now => exact iff_of_true (hasAdmin_updateUser rfl (fun _ hu => hu) h) trivial
  | deleteUser id =>
    rw [AuthWrite.SparesAdmin, not_isLastAdmin_iff h]
    -- both sides ask for an administrator with another id
    refine exists_congr fun u => ?_
    rw [write, deleteUser, List.mem_filter, decide_eq_true_eq]
    exact and_assoc.trans (and_congr_right fun _ => and_comm)
  | createSession id hash now expiresAt =>
    refine iff_of_true ?_ trivial
    simp only [write, createSession]
    split_ifs
    · exact h
    · exact h
    · exact h
  | refreshSessionExpiry hash expiresAt => exact iff_of_true h trivial
  | deleteSession hash => exact iff_of_true h trivial
  | deleteSessionsForUser id => exact iff_of_true h trivial
  | pruneExpiredSessions now => exact iff_of_true h trivial

end AuthDb

/-- The handler of the route is about to begin. -/
def AuthPhase.isHandler : AuthPhase → Bool
  | .handler _ _ => true
  | _ => false

namespace AuthPool

variable (P : AuthSetting)

/-- The action is not a write to the last administrator. -/
def SparesAdmin (t : AuthPool) (a : AuthAction) : Prop :=
  ∀ w ∈ write P t a, w.SparesAdmin t.shared.db

variable {P}

/-- Once there is an administrator, there always is one exactly when all writes spare
    the last. -/
theorem always_hasAdmin_iff {t t' : AuthPool} {as : List AuthAction} (h0 : t.shared.db.HasAdmin)
    (h : Run.run P.program.poolStep t as = some t') :
    Run.Always P.program.poolStep (fun u => u.shared.db.HasAdmin) t as ↔
      Run.Along P.program.poolStep (SparesAdmin P) t as := by
  refine Run.always_iff_along (I := fun _ => True) trivial h0 (fun _ _ _ _ _ _ _ => trivial)
    (fun u a u' _ hu hstep => ?_) h
  rw [step_db hstep, SparesAdmin]
  cases write P u a with
  | none => exact iff_of_true hu nofun
  | some w => simpa using AuthDb.hasAdmin_write_iff hu

/-- What a handler has checked before it led a request to a phase held of the pool in
    which the handler began. -/
theorem exists_lastAt_handler {σ : AuthState} {past : List AuthAction} {t : AuthPool} {k : ℕ}
    {l : AuthThread} {I : AuthState → Prop}
    (h : Run.run P.program.poolStep (Pool.idle σ) past = some t)
    (hl : t.threads.lookup k = some l)
    (hl0 : ∀ req, l.phase ≠ .arrived req)
    (hleads : ∀ σ' salt phase, LeadsTo P σ' salt phase l.phase → phase.isHandler ∧ I σ') :
    ∃ u, P.program.lastAt k (·.phase.isHandler) (Pool.idle σ) past = some u ∧ I u.shared := by
  refine Program.thread_run (K := fun past l' => l'.phase = l.phase →
    ∃ u, P.program.lastAt k (·.phase.isHandler) (Pool.idle σ) past = some u ∧ I u.shared)
    (fun past req hp => absurd hp.symm (hl0 req)) (fun past u i l₁ σ' l₂ hu hl₁ _ hs hp => ?_)
    (fun past u a l' hu ha ih hp => ?_) h hl rfl
  · obtain ⟨hhandler, hI⟩ := hleads _ _ _ (hp ▸ (AuthSetting.program_step hs).2 l₂ rfl)
    exact ⟨u, by rw [Program.lastAt_act hu hl₁, if_pos hhandler], hI⟩
  · rw [Program.lastAt_other hu ha]
    exact ih hp

variable (P) in
/-- Where the action deletes a user, the check that his request made before has
    the same answer still; and where it gives a user a role other than admin, for
    which there is no check, he is not the last administrator. -/
def ChecksHold (t₀ : AuthPool) (past : List AuthAction) (t : AuthPool) : AuthAction → Prop
  | .act k _ =>
    match t.threads.lookup k with
    | some ⟨_, .delete id⟩ => ∀ u ∈ P.program.lastAt k (·.phase.isHandler) t₀ past,
      isLastAdmin t.shared.db.listUsers id = isLastAdmin u.shared.db.listUsers id
    | some ⟨_, .setRole id role _⟩ => role ≠ .admin → ¬isLastAdmin t.shared.db.listUsers id
    | _ => True
  | _ => True

instance {t₀ : AuthPool} {past : List AuthAction} {t : AuthPool} {a : AuthAction} :
    Decidable (ChecksHold P t₀ past t a) := by
  unfold ChecksHold
  split
  · split <;> infer_instance
  · infer_instance

/-- A request comes to delete a user after it has checked that he is not the last
    administrator. -/
theorem not_isLastAdmin_of_leadsTo {σ : AuthState} {salt : String} {phase : AuthPhase} {id : ℤ}
    (h : LeadsTo P σ salt phase (.delete id)) :
    phase.isHandler ∧ ¬isLastAdmin σ.db.listUsers id := by
  have hupdate {id' password} : updatePassword id' password ≠ .inl (.delete id) := fun hu => by
    obtain h | ⟨pw, h⟩ := updatePassword_eq_inl hu
    · cases h
    · cases h
  cases h with
  | handled hh =>
    cases hh with
    | updateUser _ hu => exact absurd hu hupdate
    | deleteUser _ _ hlast => exact ⟨rfl, hlast⟩
  | roleSet hu => exact absurd hu hupdate

/-- The check was made when the request took its step before. -/
theorem checksHold_iff {σ : AuthState} {past : List AuthAction} {t : AuthPool} {a : AuthAction}
    (h : Run.run P.program.poolStep (Pool.idle σ) past = some t) :
    ChecksHold P (Pool.idle σ) past t a ↔ SparesAdmin P t a := by
  rw [SparesAdmin]
  cases a with
  | act k i =>
    rw [ChecksHold, write]
    rcases hl : t.threads.lookup k with - | ⟨refreshed, phase⟩
    · exact iff_of_true trivial fun w hw => absurd hw (Option.not_mem_none w)
    · rw [Option.bind_some]
      cases phase with
      | delete id =>
        obtain ⟨u, hu, hlast⟩ := exists_lastAt_handler h hl (by simp) fun _ _ _ hleads =>
          not_isLastAdmin_of_leadsTo hleads
        simp only [hu, AuthPhase.write, Option.mem_def, Option.some.injEq, forall_eq',
          AuthWrite.SparesAdmin, Bool.not_eq_true] at hlast ⊢
        rw [hlast]
      | setRole id role password => simp [AuthPhase.write, AuthWrite.SparesAdmin]
      | reject _ _ | refresh _ _ _ _ | touch _ _ | deleteSession _ | purgeOwn _ | purge _ =>
        refine iff_of_true trivial fun w hw => ?_
        obtain ⟨-, rfl⟩ := AuthInput.kept_eq_some.1 hw
        trivial
      | insertAdmin _ _ _ | issueSession _ _ | setOwnPassword _ _ | insertUser _ _ _ _
      | setPassword _ _ =>
        exact iff_of_true trivial fun w hw => Option.some.inj hw ▸ trivial
      | _ =>
        refine iff_of_true trivial fun w hw => ?_
        cases hw
  | env v =>
    refine iff_of_true trivial fun w hw => ?_
    cases v with
    | tick now => cases hw
    | pruneExpiredSessions now => exact Option.some.inj hw ▸ trivial
  | enter k q => exact iff_of_true trivial fun w hw => absurd hw (Option.not_mem_none w)
  | abort k => exact iff_of_true trivial fun w hw => absurd hw (Option.not_mem_none w)

/-- A second administrator is created, made a user and deleted. -/
def replacement : List AuthAction :=
  .enter 1 ⟨some "n3ur0n_session=a", .createUser "bob" "secret" "admin"⟩ :: steps 1 5 ++
  .enter 2 ⟨some "n3ur0n_session=a", .updateUser 2 (some "user") none⟩ :: steps 2 6 ++
  .enter 3 ⟨some "n3ur0n_session=a", .deleteUser 2⟩ :: steps 3 5

/-- The administrator gives himself another role. -/
def demotion : List AuthAction :=
  .enter 1 ⟨some "n3ur0n_session=a", .updateUser 1 (some "user") none⟩ :: steps 1 5

/-- The action is the one by which a bootstrap creates an administrator. -/
def Creates (t : AuthPool) : AuthAction → Bool
  | .act k _ =>
    match t.threads.lookup k with
    | some ⟨_, .insertAdmin username _ _⟩ => username ∉ t.shared.db.users.map (·.username)
    | _ => false
  | _ => false

/-- When a bootstrap comes to create its administrator, there still are no users,
    as it had checked, or the name is taken. -/
def StillEmpty (t : AuthPool) (a : AuthAction) : Prop :=
  ∀ k i l username password now, a = .act k i → t.threads.lookup k = some l →
    l.phase = .insertAdmin username password now →
    t.shared.db.countUsers = 0 ∨ username ∈ t.shared.db.users.map (·.username)

theorem creates_iff {t : AuthPool} {a : AuthAction} : Creates t a ↔
    ∃ k i l username password now, a = .act k i ∧ t.threads.lookup k = some l ∧
      l.phase = .insertAdmin username password now ∧
      username ∉ t.shared.db.users.map (·.username) := by
  constructor
  · intro h
    cases a with
    | act k i =>
      simp only [Creates] at h
      split at h
      · next refreshed username password now hl =>
        exact ⟨k, i, _, username, password, now, rfl, hl, rfl, of_decide_eq_true h⟩
      · cases h
    | enter k req => cases h
    | abort k => cases h
    | env v => cases h
  · rintro ⟨k, i, ⟨refreshed, phase⟩, username, password, now, rfl, hl, rfl, hn⟩
    simp only [Creates, hl]
    exact decide_eq_true hn

/-- The creation comes before there are users exactly if there still are none. -/
theorem stillEmpty_iff {t : AuthPool} {a : AuthAction} :
    StillEmpty t a ↔ (Creates t a → t.shared.db.countUsers = 0) := by
  rw [creates_iff]
  constructor
  · rintro h ⟨k, i, l, username, password, now, rfl, hl, hp, hn⟩
    exact (h k i l username password now rfl hl hp).resolve_right hn
  · rintro h k i l username password now rfl hl hp
    rw [or_iff_not_imp_right]
    exact fun hn => h ⟨k, i, l, username, password, now, rfl, hl, hp, hn⟩

variable (P) in
/-- Where a bootstrap comes to create its administrator, the users are as many as
    when it counted them, or the name is taken. -/
def CountHolds (t₀ : AuthPool) (past : List AuthAction) (t : AuthPool) : AuthAction → Prop
  | .act k _ =>
    match t.threads.lookup k with
    | some ⟨_, .insertAdmin username _ _⟩ =>
      (∀ u ∈ P.program.lastAt k (·.phase.isHandler) t₀ past,
        t.shared.db.countUsers = u.shared.db.countUsers) ∨
        username ∈ t.shared.db.users.map (·.username)
    | _ => True
  | _ => True

instance {t₀ : AuthPool} {past : List AuthAction} {t : AuthPool} {a : AuthAction} :
    Decidable (CountHolds P t₀ past t a) := by
  unfold CountHolds
  split
  · split <;> infer_instance
  · infer_instance

/-- A bootstrap comes to create its administrator after it has found no users. -/
theorem countUsers_of_leadsTo {σ : AuthState} {salt username password : String} {now : ℤ}
    {phase : AuthPhase} (h : LeadsTo P σ salt phase (.insertAdmin username password now)) :
    phase.isHandler ∧ σ.db.countUsers = 0 := by
  have hupdate {id pw} : updatePassword id pw ≠ .inl (.insertAdmin username password now) :=
    fun hu => by
      obtain h | ⟨pw, h⟩ := updatePassword_eq_inl hu
      · cases h
      · cases h
  cases h with
  | handled hh =>
    cases hh with
    | bootstrap hcount _ _ => exact ⟨rfl, hcount⟩
    | updateUser _ hu => exact absurd hu hupdate
  | roleSet hu => exact absurd hu hupdate

/-- The users were counted when the request took its step before. -/
theorem countHolds_iff {σ : AuthState} {past : List AuthAction} {t : AuthPool} {a : AuthAction}
    (h : Run.run P.program.poolStep (Pool.idle σ) past = some t) :
    CountHolds P (Pool.idle σ) past t a ↔ StillEmpty t a := by
  cases a with
  | act k i =>
    rw [CountHolds]
    split
    · next refreshed username password now hl =>
      obtain ⟨u, hu, hcount⟩ := exists_lastAt_handler h hl (by simp) fun _ _ _ hleads =>
        countUsers_of_leadsTo hleads
      simp only [hu, Option.mem_def, Option.some.injEq, forall_eq', hcount]
      constructor
      · rintro hholds k' i'' l username' password' now' ha hl' hp
        obtain ⟨rfl, -⟩ := Pool.Action.act.inj ha
        obtain rfl := Option.some.inj (hl.symm.trans hl')
        obtain ⟨rfl, -, -⟩ := AuthPhase.insertAdmin.inj hp
        exact hholds
      · exact fun hempty => hempty k i _ username password now rfl hl rfl
    · next hother =>
      refine iff_of_true trivial ?_
      rintro k' i' ⟨refreshed, phase⟩ username password now ha hl rfl
      obtain ⟨rfl, -⟩ := Pool.Action.act.inj ha
      exact absurd hl (hother refreshed username password now)
  | enter k q | abort k | env v =>
    refine iff_of_true trivial ?_
    rintro k' i l username password now ha
    cases ha

/-- Requests to bootstrap, with any cookie. -/
def OnlyBootstraps (as : List AuthAction) : Prop :=
  ∀ k req, .enter k req ∈ as → ∃ username password, req.route = .bootstrap username password

/-- The phases a request to bootstrap goes through. -/
def OfBootstrap : AuthPhase → Prop
  | .arrived req => ∃ username password, req.route = .bootstrap username password
  | .lookup route _ _ | .reject route _ | .refresh route _ _ _ | .handler route _ =>
    ∃ username password, route = .bootstrap username password
  | .insertAdmin _ _ _ | .issueSession _ _ => True
  | _ => False

theorem ofBootstrap_step {σ : AuthState} {salt : String} {phase phase' : AuthPhase}
    (h : LeadsTo P σ salt phase phase') (hb : OfBootstrap phase) : OfBootstrap phase' := by
  cases h with
  | handled hh =>
    obtain ⟨username, password, rfl⟩ := hb
    cases hh
    exact trivial
  | inserted _ => exact trivial
  | bypassed | anonymous | presented | unknown | expired | alive | rejected | refreshed => exact hb
  | _ => exact hb.elim

/-- Bootstraps delete nobody. -/
theorem ofBootstrap_write {σ : AuthState} {i : AuthInput} {phase : AuthPhase} {w : AuthWrite}
    (hb : OfBootstrap phase) (hw : phase.write P σ i = some w) (id : ℤ) :
    w ≠ .deleteUser id := by
  rintro rfl
  cases phase with
  | delete id => exact hb
  | reject _ _ | refresh _ _ _ _ => cases (AuthInput.kept_eq_some.1 hw).2
  | touch _ _ | deleteSession _ | purgeOwn _ | purge _ => exact hb
  | _ => cases hw

end AuthPool

namespace AuthDb

variable {db : AuthDb}

theorem countUsers_created {username passwordHash : String} {role : Role} {now : ℤ}
    (hn : username ∉ db.users.map (·.username)) :
    (db.write (.createUser username passwordHash role now)).countUsers = db.countUsers + 1 := by
  simp only [write, createUser, dif_neg hn]
  exact List.length_append

/-- There are no fewer users, unless one is deleted. -/
theorem countUsers_le_write {w : AuthWrite} (hw : ∀ id, w ≠ .deleteUser id) :
    db.countUsers ≤ (db.write w).countUsers := by
  cases w with
  | createUser username passwordHash role now =>
    by_cases hn : username ∈ db.users.map (·.username)
    · simp only [write, createUser, dif_pos hn]
      exact le_rfl
    · rw [countUsers_created hn]
      exact Nat.le_succ _
  | deleteUser id => exact absurd rfl (hw id)
  | updateUserRole id role => exact (List.length_map _).ge
  | setUserPassword id passwordHash => exact (List.length_map _).ge
  | touchLastLogin id now => exact (List.length_map _).ge
  | createSession id hash now expiresAt =>
    simp only [write, createSession]
    split_ifs
    · exact le_rfl
    · exact le_rfl
    · exact le_rfl
  | _ => exact le_rfl

end AuthDb

namespace AuthPool

variable {P : AuthSetting}

theorem ofBootstrap_poolStep {t t' : AuthPool} {a : AuthAction}
    (h : Pool.Holds (fun _ => True) (fun _ _ l => OfBootstrap l.phase) t)
    (hstep : P.program.poolStep t a = some t')
    (henter : ∀ k req, a = .enter k req →
      ∃ username password, req.route = .bootstrap username password) :
    Pool.Holds (fun _ => True) (fun _ _ l => OfBootstrap l.phase) t' := by
  refine h.step hstep henter (fun k salt l σ o _ hl hs => ⟨trivial, fun l' hl' => ?_,
    fun k' l' _ hl' => h.2 k' l' hl'⟩)
    (fun k l σ _ _ hs => ⟨trivial, fun k' l' _ hl' => h.2 k' l' hl'⟩)
    fun v σ _ _ => ⟨trivial, h.2⟩
  exact ofBootstrap_step ((AuthSetting.program_step hs).2 l' hl') (h.2 k l hl)

/-- After a creation there are users, and there still are after what a bootstrap
    does. -/
theorem countUsers_step {t t' : AuthPool} {a : AuthAction}
    (h : Pool.Holds (fun _ => True) (fun _ _ l => OfBootstrap l.phase) t)
    (hstep : P.program.poolStep t a = some t') :
    t.shared.db.countUsers + (Creates t a).toNat ≤ t'.shared.db.countUsers := by
  rw [step_db hstep]
  cases hc : Creates t a with
  | true =>
    obtain ⟨k, salt, ⟨refreshed, phase⟩, username, password, now, rfl, hl, rfl, hn⟩ :=
      creates_iff.1 hc
    rw [write, hl]
    exact (AuthDb.countUsers_created hn).ge
  | false =>
    cases hw : write P t a with
    | none => exact le_rfl
    | some w =>
      refine AuthDb.countUsers_le_write fun id => ?_
      cases a with
      | act k salt =>
        obtain ⟨l, hl, hw⟩ := Option.bind_eq_some_iff.1 hw
        exact ofBootstrap_write (h.2 k l hl) hw id
      | env v =>
        cases v with
        | tick now => cases hw
        | pruneExpiredSessions now =>
          rintro rfl
          cases hw
      | enter k req => cases hw
      | abort k => cases hw

/-- One administrator at most is created, and then there are users. -/
theorem count_creates_le {σ : AuthState} {as : List AuthAction} {t : AuthPool}
    (hb : OnlyBootstraps as) (h : Run.run P.program.poolStep (Pool.idle σ) as = some t)
    (hQ : Run.Along P.program.poolStep StillEmpty (Pool.idle σ) as) :
    Pool.Holds (fun _ => True) (fun _ _ l => OfBootstrap l.phase) t ∧
      Run.count P.program.poolStep Creates (Pool.idle σ) as ≤ 1 ∧
      Run.count P.program.poolStep Creates (Pool.idle σ) as ≤ t.shared.db.countUsers := by
  induction as using List.reverseRecOn generalizing t with
  | nil =>
    obtain rfl := Option.some.inj h
    exact ⟨Pool.holds_idle trivial, Nat.zero_le _, Nat.zero_le _⟩
  | append_singleton as a ih =>
    obtain ⟨u, hu, hstep⟩ := Run.run_snoc.1 h
    obtain ⟨hQ, hQa⟩ := (Run.along_snoc hu).1 hQ
    obtain ⟨hholds, hone, hle⟩ :=
      ih (fun k req hk => hb k req (List.mem_append_left _ hk)) hu hQ
    have hgrow := countUsers_step hholds hstep
    rw [Run.count_snoc hu]
    refine ⟨ofBootstrap_poolStep hholds hstep fun k req ha =>
      hb k req (List.mem_append_right _ (ha ▸ List.mem_singleton_self _)), ?_, by omega⟩
    -- There are no users when one is created, so that none was created before.
    cases hc : Creates u a with
    | true =>
      have hzero := stillEmpty_iff.1 hQa hc
      rw [Bool.toNat_true]
      omega
    | false => exact hone

/-- Among any number of requests to bootstrap, at most one creates an
    administrator, and none does once there are users, exactly when the users are
    as many, each time one comes to create its administrator, as it had counted
    (or his name is taken, and it fails). -/
theorem bootstrap_once {σ : AuthState} {as : List AuthAction} {t : AuthPool}
    (hb : OnlyBootstraps as) (h : Run.run P.program.poolStep (Pool.idle σ) as = some t) :
    (Run.count P.program.poolStep Creates (Pool.idle σ) as ≤ 1 ∧
      Run.Along P.program.poolStep (fun u a => Creates u a → u.shared.db.countUsers = 0)
        (Pool.idle σ) as) ↔
    Run.AlongPast P.program.poolStep (CountHolds P (Pool.idle σ)) [] (Pool.idle σ) as := by
  have hempty : Run.AlongPast P.program.poolStep (CountHolds P (Pool.idle σ)) [] (Pool.idle σ) as ↔
      Run.Along P.program.poolStep StillEmpty (Pool.idle σ) as :=
    Run.alongPast_iff_along (fun _ _ _ hpast => countHolds_iff hpast) rfl
  rw [hempty]
  constructor
  · exact fun hQ => hQ.2.imp fun u a _ => stillEmpty_iff.2
  · exact fun hQ => ⟨(count_creates_le hb h hQ).2.1, hQ.imp fun u a _ => stillEmpty_iff.1⟩

/-- The second request counts the users when the first one has created one. -/
def oneBootstrap : List AuthAction :=
  .enter 0 ⟨none, .bootstrap "alice" "secret"⟩ :: .enter 1 ⟨none, .bootstrap "mallory" "secret"⟩ ::
    steps 1 1 ++ steps 0 4 ++ steps 1 1

/-- Only the first one does. -/
theorem bootstrap_once_one :
    Run.count toySetting.program.poolStep Creates (fresh 0) oneBootstrap = 1 ∧
    Run.Along toySetting.program.poolStep (fun u a => Creates u a → u.shared.db.countUsers = 0)
      (fresh 0) oneBootstrap := by
  have hb : OnlyBootstraps oneBootstrap := by
    intro k req h
    simp only [oneBootstrap, steps, List.mem_append, List.mem_cons, List.mem_replicate,
      Pool.Action.enter.injEq, reduceCtorEq, and_false, or_false] at h
    rcases h with ⟨-, rfl⟩ | ⟨-, rfl⟩
    · exact ⟨_, _, rfl⟩
    · exact ⟨_, _, rfl⟩
  obtain ⟨t, ht⟩ := Option.isSome_iff_exists.1 (show (Run.run toySetting.program.poolStep (fresh 0)
    oneBootstrap).isSome by decide)
  have hholds : Run.AlongPast toySetting.program.poolStep (CountHolds toySetting (fresh 0)) []
      (fresh 0) oneBootstrap := by decide
  exact ⟨by decide, ((bootstrap_once hb ht).2 hholds).2⟩

/-- Two requests check that there are no users, before either creates one. -/
def twoBootstraps : List AuthAction :=
  .enter 0 ⟨none, .bootstrap "alice" "secret"⟩ :: steps 0 2 ++
  .enter 1 ⟨none, .bootstrap "mallory" "secret"⟩ :: steps 1 2 ++ steps 0 1 ++ steps 1 1

/-- Both create an administrator. -/
theorem two_administrators : Run.count toySetting.program.poolStep Creates (fresh 0) twoBootstraps =
    2 ∧ (Run.run toySetting.program.poolStep (fresh 0) twoBootstraps).map
      (fun t => t.shared.db.listUsers.map fun u => (u.username, u.role)) =
        some [("alice", .admin), ("mallory", .admin)] := by
  decide

end AuthPool

end N3ur0n
