import FlowBasic.Value

namespace FlowBasic

inductive Builtin where
  | version
  | load
  | stored
  | store
  | delete
  | mapExists
  | mapGet
  | mapStore
  | mapDelete
  | random
  | scid
  | blid
  | txid
  | dero
  | blockHeight
  | blockTimestamp
  | signer
  | updateCode
  | isAddressValid
  | addressRaw
  | addressString
  | sendDeroToAddress
  | sendAssetToAddress
  | deroValue
  | assetValue
  | atoi
  | itoa
  | sha256
  | sha3
  | keccak256
  | hex
  | hexDecode
  | min
  | max
  | strlen
  | substr
deriving DecidableEq

/-- A built-in with a side effect is called in a statement of its own. -/
structure Signature where
  name : String
  args : List (String × ValueType)
  returns : ValueType
  asProcess : Bool
  cost : Nat
  description : String

namespace Builtin

def signature : Builtin → Signature
  | version => ⟨"VERSION", [("v", .string)], .uint64, false, 1000,
    "Sets a version to dvm.VERSION"⟩
  | load => ⟨"LOAD", [("variable", .any)], .any, false, 5000,
    "Loads a variable previously stored with STORE"⟩
  | stored => ⟨"EXISTS", [("variable", .any)], .uint64, false, 5000,
    "Returns 1 if the variable is stored in DB"⟩
  | store => ⟨"STORE", [("key", .any), ("value", .any)], .uint64, true, 10000,
    "Stores key and value in the DB"⟩
  | delete => ⟨"DELETE", [("variable", .any)], .uint64, true, 3000,
    "Deletes a stored key"⟩
  | mapExists => ⟨"MAPEXISTS", [("variable", .any)], .uint64, false, 1000,
    "Returns 1 if the variable is stored in the session map"⟩
  | mapGet => ⟨"MAPGET", [("variable", .any)], .any, false, 1000,
    "Loads a variable stored with MAPSTORE"⟩
  | mapStore => ⟨"MAPSTORE", [("key", .string), ("value", .any)], .uint64, true, 1000,
    "Stores key and value in the session map"⟩
  | mapDelete => ⟨"MAPDELETE", [("variable", .any)], .uint64, true, 1000,
    "Deletes an element from the session map"⟩
  | random => ⟨"RANDOM", [("limit", .uint64)], .uint64, false, 2500,
    "Random number in 0..limit"⟩
  | scid => ⟨"SCID", [], .string, false, 2000,
    "Id of the running smart contract"⟩
  | blid => ⟨"BLID", [], .string, false, 2000,
    "Id of the current block"⟩
  | txid => ⟨"TXID", [], .string, false, 2000,
    "Id of the current transaction"⟩
  | dero => ⟨"DERO", [], .string, false, 10000,
    "String form of the zero hash"⟩
  | blockHeight => ⟨"BLOCK_HEIGHT", [], .uint64, false, 2000,
    "Current chain height"⟩
  | blockTimestamp => ⟨"BLOCK_TIMESTAMP", [], .uint64, false, 2500,
    "Timestamp of the current block"⟩
  | signer => ⟨"SIGNER", [], .string, false, 5000,
    "Address that signed the transaction"⟩
  | updateCode => ⟨"UPDATE_SC_CODE", [("sc_code", .string)], .uint64, true, 5000,
    "Replaces the smart contract code"⟩
  | isAddressValid => ⟨"IS_ADDRESS_VALID", [("address", .string)], .uint64, false, 50000,
    "Returns 1 if the address is valid"⟩
  | addressRaw => ⟨"ADDRESS_RAW", [("address", .string)], .string, false, 60000,
    "Raw 33 byte form of an address"⟩
  | addressString => ⟨"ADDRESS_STRING", [("p", .string)], .string, false, 50000,
    "String form of a raw address"⟩
  | sendDeroToAddress => ⟨"SEND_DERO_TO_ADDRESS", [("a", .string), ("amount", .uint64)], .uint64,
    true, 70000, "Sends DERO from the contract balance"⟩
  | sendAssetToAddress => ⟨"SEND_ASSET_TO_ADDRESS",
    [("a", .string), ("amount", .uint64), ("asset", .string)], .uint64, true, 90000,
    "Sends an asset from the contract balance"⟩
  | deroValue => ⟨"DEROVALUE", [], .uint64, false, 10000,
    "DERO sent with the transaction"⟩
  | assetValue => ⟨"ASSETVALUE", [("asset", .string)], .uint64, false, 10000,
    "Amount of an asset sent with the transaction"⟩
  | atoi => ⟨"ATOI", [("s", .string)], .uint64, false, 5000,
    "Parses a Uint64"⟩
  | itoa => ⟨"ITOA", [("n", .uint64)], .string, false, 5000,
    "Formats a Uint64"⟩
  | sha256 => ⟨"SHA256", [("s", .string)], .string, false, 25000,
    "sha2-256 hash"⟩
  | sha3 => ⟨"SHA3256", [("s", .string)], .string, false, 25000,
    "sha3-256 hash"⟩
  | keccak256 => ⟨"KECCAK256", [("s", .string)], .string, false, 25000,
    "keccak256 hash"⟩
  | hex => ⟨"HEX", [("s", .string)], .string, false, 10000,
    "Hex encodes a string"⟩
  | hexDecode => ⟨"HEXDECODE", [("s", .string)], .string, false, 10000,
    "Hex decodes a string"⟩
  | min => ⟨"MIN", [("f", .uint64), ("s", .uint64)], .uint64, false, 5000,
    "Minimum of two values"⟩
  | max => ⟨"MAX", [("f", .uint64), ("s", .uint64)], .uint64, false, 5000,
    "Maximum of two values"⟩
  | strlen => ⟨"STRLEN", [("s", .string)], .uint64, false, 20000,
    "Length of a string"⟩
  | substr => ⟨"SUBSTR", [("s", .string), ("offset", .uint64), ("length", .uint64)], .string, false,
    20000, "Substring with offset and length"⟩

def name (b : Builtin) : String := b.signature.name

def all : List Builtin :=
  [version, load, stored, store, delete, mapExists, mapGet, mapStore, mapDelete, random, scid,
    blid, txid, dero, blockHeight, blockTimestamp, signer, updateCode, isAddressValid,
    addressRaw, addressString, sendDeroToAddress, sendAssetToAddress, deroValue, assetValue,
    atoi, itoa, sha256, sha3, keccak256, hex, hexDecode, min, max, strlen, substr]

def ofName? (n : String) : Option Builtin := all.find? (fun b => b.name = n)

theorem mem_all (b : Builtin) : b ∈ all := by
  cases b <;> decide

end Builtin

end FlowBasic
