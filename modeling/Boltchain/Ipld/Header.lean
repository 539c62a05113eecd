import Boltchain.Lib.Record

namespace Boltchain.Ipld

open Lib.Record (FixedBytes Field Schema)

abbrev Bytes := List UInt8

abbrev B256 := FixedBytes 32

abbrev Address := FixedBytes 20

abbrev U64 := Fin (256 ^ 8)

abbrev U256 := Fin (256 ^ 32)

/-- The fields that later forks added to the header. Each is there only with those before it: the base fee, the
withdrawals root, the blob gas used, the excess blob gas, the parent beacon block root, the requests hash, the
block access list hash and the slot number. -/
abbrev ForkFields := Option (U64 × Option (B256 × Option (U64 × Option (U64 × Option (B256 × Option (B256 ×
  Option (B256 × Option (U64 × Unit))))))))

structure Header where
  parentHash : B256
  ommersHash : B256
  beneficiary : Address
  stateRoot : B256
  transactionsRoot : B256
  receiptsRoot : B256
  logsBloom : FixedBytes 256
  difficulty : U256
  number : U64
  gasLimit : U64
  gasUsed : U64
  timestamp : U64
  extraData : Bytes
  mixHash : B256
  nonce : FixedBytes 8
  forkFields : ForkFields

namespace Header

def forkSchema : Schema ForkFields :=
  .optional (.uint 8) <| .optional (.fixed 32) <| .optional (.uint 8) <| .optional (.uint 8) <|
  .optional (.fixed 32) <| .optional (.fixed 32) <| .optional (.fixed 32) <| .optional (.uint 8) .done

def schema : Schema Header :=
  .iso (.field (.fixed 32) <| .field (.fixed 32) <| .field (.fixed 20) <| .field (.fixed 32) <| .field (.fixed 32) <|
      .field (.fixed 32) <| .field (.fixed 256) <| .field (.uint 32) <| .field (.uint 8) <| .field (.uint 8) <|
      .field (.uint 8) <| .field (.uint 8) <| .field .raw <| .field (.fixed 32) <| .field (.fixed 8) forkSchema)
    (fun (a, b, c, d, e, f, g, h, i, j, k, l, m, n, o, p) => ⟨a, b, c, d, e, f, g, h, i, j, k, l, m, n, o, p⟩)
    (fun ⟨a, b, c, d, e, f, g, h, i, j, k, l, m, n, o, p⟩ => (a, b, c, d, e, f, g, h, i, j, k, l, m, n, o, p))
    (fun _ => rfl) (fun _ => rfl)

def encode (h : Header) : Bytes := schema.encode h

def decode (buf : Bytes) : Option (Header × Bytes) := schema.decode buf

end Header

end Boltchain.Ipld
