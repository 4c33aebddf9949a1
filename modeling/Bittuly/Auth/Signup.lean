import Bittuly.Auth.Accounts

/-!
# Pending signups over time

References: `services/auth-service/src/services.rs` (`request_signup`, `verify_otp`, `update_user`),
`services/auth-service/src/email.rs` ("Your one-time verification code").

Nothing records that a pending token has been used. What stops a second use is the email, which the first
one has taken; and `update_user` takes over any email without a code.
-/

namespace Bittuly.Auth

open Runs (Run)

namespace Accounts

variable {lib : JsonWebToken} {hasher : PasswordHasher} {validateEmail : String → Bool} {env : Env}
  {secret : String}

/-! ## Using a code twice -/

variable (lib secret) in
/-- A pending token for this email has been used and is still live. -/
def Consumed (s : Accounts) (email : String) : Prop :=
  ∃ (m : Mint) (c : OtpClaims) (otp : String) (id : Uuid), m.body = .inr c ∧ m.Live s.now ∧
    .verified (m.token lib secret) otp id ∈ s.log ∧ c.email = email

theorem Consumed.mono {s s' : Accounts} {email : String} (h : s.Consumed lib secret email)
    (hnow : s'.now = s.now) (hlog : ∀ e ∈ s.log, e ∈ s'.log) : s'.Consumed lib secret email := by
  obtain ⟨m, c, otp, id, hbody, hlive, hmem, hemail⟩ := h
  exact ⟨m, c, otp, id, hbody, hnow ▸ hlive, hlog _ hmem, hemail⟩

/-- A code was sent to this email, and presented later with its token. -/
def EmailVerified (log : List Entry) (email : String) : Prop :=
  ∃ l₁ token otp id l₂ payload, log = l₁ ++ .verified token otp id :: l₂ ∧
    .signedUp payload otp token ∈ l₂ ∧ payload.email = email

theorem EmailVerified.cons {log : List Entry} {email : String} (h : EmailVerified log email)
    (e : Entry) : EmailVerified (e :: log) email := by
  obtain ⟨l₁, token, otp, id, l₂, payload, rfl, hmem, hemail⟩ := h
  exact ⟨e :: l₁, token, otp, id, l₂, payload, rfl, hmem, hemail⟩

end Accounts

end Bittuly.Auth
