import AgeCrypt.Proofs.PointOrders
import AgeCrypt.Proofs.Wrapping

/-!
# Agreement on shared secrets

Two secrets agree on a shared secret, each with the public key of the other (`Curve25519.sharedSecret_publicKey`), since
both come to the same multiple of the base point. All multiples by scalars have the order of the base point (`Generates`),
so no public key of a secret is of low order. In general a shared secret is that of zeros exactly if the public key is of
low order (`Curve25519.contributory_iff`).

Main statement: `X25519.unwrap_wrapWith_toPublic`.
-/

namespace AgeCrypt

namespace Curve25519

open Montgomery

theorem scalarOf_eq (secret : Block 32) :
    scalarOf secret = ofLittleEndian secret.bytes % 2 ^ 255 % 2 ^ 254 / 8 * 8 + 2 ^ 254 := rfl

theorem coordinateOf_eq (key : Block 32) : coordinateOf key = ofLittleEndian key.bytes % 2 ^ 255 % fieldOrder := rfl

theorem isScalar_scalarOf (secret : Block 32) : IsScalar (scalarOf secret) := by
  have high : ofLittleEndian secret.bytes % 2 ^ 255 % 2 ^ 254 < 2 ^ 254 := Nat.mod_lt _ (by decide)
  refine ⟨ofLittleEndian secret.bytes % 2 ^ 255 % 2 ^ 254 / 8 + 2 ^ 251, ?_, ?_, ?_⟩
  · omega
  · omega
  · rw [scalarOf_eq]
    omega

theorem IsScalar.not_dvd {n : Nat} (scalar : IsScalar n) : ¬ order ∣ 2 * n := by
  obtain ⟨k, positive, k_lt, rfl⟩ := scalar
  rw [← Nat.mul_assoc]
  exact not_dvd_of_large prime_order (by decide) (by decide) (by decide) positive k_lt

/-- The coordinate of a point that has the order of the base point. -/
structure Generates (P : Point 1) (u : Nat) : Prop where
  positive : 0 < u
  lt : u < fieldOrder
  stands : Stands P (u : ZMod fieldOrder) 1
  addOrderOf_eq : addOrderOf P = order

namespace Generates
variable {P : Point 1} {u n : Nat}

theorem nonzero (generates : Generates P u) : (u : ZMod fieldOrder) ≠ 0 := natCast_ne_zero generates.positive generates.lt

theorem smul (generates : Generates P u) (scalar : IsScalar n) : Generates (n • P) (multiply n u) := by
  have coprime : Nat.Coprime order n :=
    (Nat.Prime.coprime_iff_not_dvd prime_order).2 fun divides => scalar.not_dvd (Dvd.dvd.mul_left divides 2)
  have whole : addOrderOf (n • P) = order := by
    rw [Nat.Coprime.addOrderOf_nsmul (by rwa [generates.addOrderOf_eq]), generates.addOrderOf_eq]
  refine ⟨Nat.pos_of_ne_zero fun zero => ?_, multiply_lt n u, ?_, whole⟩
  · have infinity := double_smul_eq_zero one_factor generates.stands generates.nonzero scalar.lt zero
    exact scalar.not_dvd (generates.addOrderOf_eq ▸ addOrderOf_dvd_of_nsmul_eq_zero infinity)
  · refine stands_multiply one_factor generates.stands generates.nonzero scalar.lt fun infinity => ?_
    rw [infinity, addOrderOf_zero] at whole
    exact absurd whole (by decide)

theorem coordinate_unique {v : Nat} (generates : Generates P u) (generates' : Generates P v) : u = v := by
  refine eq_of_cast_eq generates.lt generates'.lt ?_
  rw [((stands_iff_of_whole (regular one_factor) generates'.stands).1 generates.stands).2, mul_one]

theorem not_mem_lowOrder (generates : Generates P u) : u ∉ lowOrder := by
  intro low
  have eight := (ladderAt_eight u low).resolve_left (Nat.ne_of_gt generates.positive)
  have infinity := (smul_eq_zero_iff one_factor generates.stands generates.nonzero (by decide)).2 eight
  have divides : order ∣ 8 := generates.addOrderOf_eq ▸ addOrderOf_dvd_of_nsmul_eq_zero infinity
  exact Nat.not_le.2 (by decide) (Nat.le_of_dvd (by decide) divides)

end Generates

theorem exists_generates_base : ∃ B : Point 1, Generates B 9 := by
  obtain ⟨B, stands, whole⟩ := exists_base
  exact ⟨B, by decide, by decide, stands, whole⟩

/-- Two multiplications of the base point can be exchanged. -/
theorem multiply_comm {m n : Nat} (scalar : IsScalar m) (scalar' : IsScalar n) :
    multiply m (multiply n 9) = multiply n (multiply m 9) := by
  obtain ⟨B, base⟩ := exists_generates_base
  have other := (base.smul scalar).smul scalar'
  rw [smul_comm] at other
  exact ((base.smul scalar').smul scalar).coordinate_unique other

theorem coordinateOf_lt (key : Block 32) : coordinateOf key < fieldOrder := Nat.mod_lt _ fieldOrder_pos

theorem coordinateOf_littleEndian {n : Nat} (lt : n < fieldOrder) (size : (littleEndian 32 n).length = 32) :
    coordinateOf ⟨littleEndian 32 n, size⟩ = n := by
  have below : n < 2 ^ 255 := Nat.lt_trans lt (by decide)
  rw [coordinateOf_eq, ofLittleEndian_littleEndian, Nat.mod_eq_of_lt (Nat.lt_trans below (by decide)), Nat.mod_eq_of_lt below,
    Nat.mod_eq_of_lt lt]

theorem coordinateOf_publicKey (secret : Block 32) : coordinateOf (publicKey secret) = multiply (scalarOf secret) 9 := by
  have base : coordinateOf basePoint = 9 := coordinateOf_littleEndian (by decide) _
  rw [publicKey, sharedSecret, coordinateOf_littleEndian (multiply_lt _ _), base]

/-- Two secrets share the same, each with the public key of the other. -/
theorem sharedSecret_publicKey (secret other : Block 32) :
    sharedSecret secret (publicKey other) = sharedSecret other (publicKey secret) := by
  rw [sharedSecret, sharedSecret, Block.mk.injEq, coordinateOf_publicKey, coordinateOf_publicKey,
    multiply_comm (isScalar_scalarOf secret) (isScalar_scalarOf other)]

theorem publicKey_not_lowOrder (secret : Block 32) : coordinateOf (publicKey secret) ∉ lowOrder := by
  obtain ⟨B, base⟩ := exists_generates_base
  rw [coordinateOf_publicKey]
  exact (base.smul (isScalar_scalarOf secret)).not_mem_lowOrder

theorem sharedSecret_eq_zeros_iff (secret key : Block 32) :
    sharedSecret secret key = Block.zeros 32 ↔ coordinateOf key ∈ lowOrder := by
  rw [← multiply_eq_zero_iff_lowOrder (isScalar_scalarOf secret) (coordinateOf_lt key), sharedSecret, Block.zeros,
    Block.mk.injEq]
  constructor
  · intro zeros
    have number := congrArg ofLittleEndian zeros
    rw [ofLittleEndian_littleEndian, Nat.mod_eq_of_lt (Nat.lt_trans (multiply_lt _ _) (by decide))] at number
    exact number
  · intro zero
    rw [zero]
    rfl

theorem contributory_eq_false_iff {shared : Block 32} : contributory shared = false ↔ shared = Block.zeros 32 := by
  constructor
  · intro none
    have zero : ∀ b ∈ shared.bytes, b = 0 := by
      intro b member
      simpa using List.any_eq_false.1 none b member
    have bytes : shared.bytes = List.replicate 32 0 := List.eq_replicate_iff.2 ⟨shared.length_bytes, zero⟩
    cases shared
    exact (Block.mk.injEq ..).mpr bytes
  · rintro rfl
    rfl

/-- Whether a secret contributes does not depend on the secret: it does unless the public key is of low order. -/
theorem contributory_iff (secret key : Block 32) :
    contributory (sharedSecret secret key) = true ↔ coordinateOf key ∉ lowOrder := by
  rw [← Bool.not_eq_false, contributory_eq_false_iff, sharedSecret_eq_zeros_iff]

end Curve25519

namespace X25519

/-- Of what is assumed of the exchanges, only that bodies for other keys do not open is left to assume. -/
theorem agreement_of_selective {secret : SecretKey} {fileKey : FileKey} {drawn : List (PublicKey × SecretKey)}
    (selective : ∀ key ephemeral, (key, ephemeral) ∈ drawn → key ≠ secret.toPublic →
      unwrapUnder (unwrappingKey secret ephemeral) (wrapWith ephemeral key fileKey).body = none) :
    Agreement secret fileKey drawn where
  commutes ephemeral _ := Curve25519.sharedSecret_publicKey ephemeral.block secret.block
  contributes _ ephemeral _ := (Curve25519.contributory_iff _ _).2 (Curve25519.publicKey_not_lowOrder ephemeral.block)
  selective := selective

/-- Every identity unwraps what was wrapped for its public key, with whatever ephemeral secret. -/
theorem unwrap_wrapWith_toPublic (secret ephemeral : SecretKey) (fileKey : FileKey) :
    (identity secret).unwrap (wrapWith ephemeral secret.toPublic fileKey) = some (.ok fileKey) := by
  have agreement : Agreement secret fileKey [(secret.toPublic, ephemeral)] := by
    refine agreement_of_selective fun key ephemeral member other => ?_
    exact absurd (Prod.mk.inj (List.mem_singleton.1 member)).1 other
  exact unwrap_own agreement List.mem_cons_self

end X25519

end AgeCrypt
