import GnuPoc.Sis.Compressed

/-!
# GnuPoc.Sis.Signing — signature chains (`signutils.cpp`)

The keys and OpenSSL are a parameter: a `Signer` is one use of a certificate file and a key, and says
what `EVP_SignFinal` returns for a buffer in that use.  The signature covers `CopyFieldData` of the
controller it is made for.
-/

namespace GnuPoc.Sis

open GnuPoc.Lib

/-- A certificate file, a key and a passphrase in one signing.  `signature` is `none` where OpenSSL
reports an error or the signature does not fit the certificate; `certificates` is the DER data
of the certificates, `none` when there is none to read; `dsa` is the type after `SigAuto` was resolved. -/
structure Signer where
  dsa : Bool
  certificates : Option Bytes
  signature : Bytes → Option Bytes

/-- A wide string literal. -/
def wide (s : String) : List UInt32 := s.toList.map fun c => UInt32.ofNat c.toNat

/-- The algorithm strings of `makeSignature`. -/
def Signer.algorithm (σ : Signer) : List UInt32 :=
  if σ.dsa then wide "1.2.840.10040.4.3" else wide "1.2.840.113549.1.1.5"

/-- `SISSignature(signatureAlgorithm, blob)`. -/
def Signer.signatureField (σ : Signer) (signature : Bytes) : SISField :=
  .plain .SISSignature [.plain .SISSignatureAlgorithm [.leaf (.SISString σ.algorithm)],
    .leaf (.SISBlob signature)]

/-- `SISSignatureCertificateChain(signatures, chain)`. -/
def Signer.chainField (σ : Signer) (signature certificates : Bytes) : SISField :=
  .plain .SISSignatureCertificateChain
    [.SISArray (PlainClass.id .SISSignature) [σ.signatureField signature],
      .plain .SISCertificateChain [.leaf (.SISBlob certificates)]]

/-- `makeSignature`. -/
def makeSignature (σ : Signer) (controller : SISField) : Res SISField := do
  let buffer ← controller.fieldData
  match σ.signature buffer with
  | none => .error .exits
  | some signature => .ok (σ.signatureField signature)

/-- `makeChain`. -/
def makeChain (σ : Signer) (controller : SISField) : Res SISField :=
  match σ.certificates with
  | none => .error .exits
  | some certificates => do
    let signature ← makeSignature σ controller
    .ok (.plain .SISSignatureCertificateChain
      [.SISArray (PlainClass.id .SISSignature) [signature],
        .plain .SISCertificateChain [.leaf (.SISBlob certificates)]])

/-- A chain whose signature was computed over `payload`. -/
def SignedOver (σ : Signer) (payload : Bytes) (chain : SISField) : Prop :=
  ∃ signature certificates, σ.signature payload = some signature ∧
    σ.certificates = some certificates ∧ chain = σ.chainField signature certificates

theorem makeChain_signedOver {σ : Signer} {controller chain : SISField}
    (h : makeChain σ controller = .ok chain) :
    controller.copyFieldData.length = controller.length ∧
      SignedOver σ controller.copyFieldData chain := by
  unfold makeChain at h
  split at h
  · cases h
  · next certificates hcert =>
    obtain ⟨sig, hsig, h⟩ := bind_eq_ok.mp h
    cases h
    obtain ⟨buffer, hbuf, hsig⟩ := bind_eq_ok.mp hsig
    obtain ⟨rfl, hlen⟩ := SISField.fieldData_eq hbuf
    split at hsig
    · cases hsig
    · next signature hs =>
      cases hsig
      exact ⟨hlen, signature, certificates, hs, hcert, rfl⟩

section
variable {σ : Signer} {payload : Bytes} {chain : SISField}

theorem SignedOver.id (h : SignedOver σ payload chain) :
    chain.id = PlainClass.id .SISSignatureCertificateChain := by
  obtain ⟨signature, certificates, -, -, rfl⟩ := h
  rfl

theorem SignedOver.sound (h : SignedOver σ payload chain) : chain.Sound := by
  obtain ⟨signature, certificates, -, -, rfl⟩ := h
  simp [Signer.chainField, Signer.signatureField, SISField.Sound, SoundAll, Leaf.Sound, SISField.id,
    SISField.cls, Compound.cls, FieldClass.id, CompoundClass.id, PlainClass.id]

end

end GnuPoc.Sis
