import TaintScan.Rule.Builtin.Pattern

/-! # Weak cryptography and insecure randomness

All of them are shapes: they look at names and literals, not at labels.
-/
namespace TaintScan.Builtin

def crypto : List Rule :=
  [ { id := "vigil/weak-crypto/algorithm"
      name := "Weak algorithm or mode requested by name"
      category := some .weakCrypto
      severity := .high
      severityFloor := .medium
      matcher := .syntactic (.weakAlgorithm
        (patterns ["MessageDigest.getInstance", "Cipher.getInstance", "KeyGenerator.getInstance",
          "SecretKeyFactory.getInstance", "hashlib.new", "crypto.createHash",
          "crypto.createCipheriv", "crypto.createCipher", "createHash", "createCipheriv",
          "HashAlgorithm.Create", "CryptoConfig.CreateFromName", "hash", "hash_hmac",
          "openssl_encrypt", "openssl_decrypt", "OpenSSL.Cipher.new", "OpenSSL.Digest.new"])
        ["MD2", "MD4", "MD5", "SHA1", "SHA-1", "DES", "DESede", "3DES", "TripleDES", "RC2", "RC4",
          "ARCFOUR", "Blowfish", "ECB"])
      confidence := .high
      message := "{callee} requests the weak algorithm {algorithm}"
      cweId := some "CWE-327"
      owaspCategory := some "A02:2021-Cryptographic Failures"
      remediation :=
        "Use SHA-256 or better for digests, bcrypt / Argon2 for passwords, and AES-GCM for encryption." },
    { id := "vigil/weak-crypto/digest-call"
      name := "Weak digest or cipher constructed directly"
      category := some .weakCrypto
      severity := .high
      severityFloor := .medium
      matcher := .syntactic (.forbiddenCall
        (patterns ["hashlib.md5", "hashlib.sha1", "MD5.Create", "SHA1.Create", "DES.Create",
          "new MD5CryptoServiceProvider", "new SHA1Managed", "new SHA1CryptoServiceProvider",
          "new DESCryptoServiceProvider", "new TripleDESCryptoServiceProvider",
          "DigestUtils.md5Hex", "DigestUtils.sha1Hex", "DigestUtils.md5", "md5.New", "md5.Sum",
          "sha1.New", "sha1.Sum", "des.NewCipher", "rc4.NewCipher", "Digest.MD5.hexdigest",
          "Digest.SHA1.hexdigest", "md5", "sha1", "md5_file", "crypt"]))
      confidence := .high
      message := "{callee} uses a broken digest or cipher"
      cweId := some "CWE-328"
      owaspCategory := some "A02:2021-Cryptographic Failures"
      remediation :=
        "Use SHA-256 or better for digests, bcrypt / Argon2 for passwords, and AES-GCM for encryption." },
    { id := "vigil/insecure-random/token"
      name := "Non-cryptographic random value in a security context"
      category := some .insecureRandomness
      matcher := .syntactic (.insecureRandom
        (patterns ["new Random", "Math.random", "random.random", "random.randint", "random.choice",
          "random.randrange", "random.getrandbits", "rand.Int", "rand.Intn", "rand.Int63",
          "rand.Uint32", "Random.rand", "rand", "mt_rand", "uniqid", "lcg_value", "Next"])
        ["token", "session", "nonce", "otp", "password", "secret", "key", "salt", "csrf", "reset"])
      message := "{callee} generates {context} with a predictable random source"
      cweId := some "CWE-330"
      owaspCategory := some "A02:2021-Cryptographic Failures"
      remediation :=
        "Use a CSPRNG (SecureRandom, secrets, crypto.randomBytes, crypto/rand, random_bytes)." } ]

end TaintScan.Builtin
