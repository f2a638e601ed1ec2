import GracefulMusic.Uchar

/-! Composed characters and their base letters (`unidecomp.h`, `uchar.c`). -/
namespace GracefulMusic

def unidecompMap : List (Uchar × Uchar) := [
  (0xc0, 0x41), (0xc1, 0x41), (0xc2, 0x41), (0xc3, 0x41), (0xc4, 0x41), (0xc5, 0x41), (0xc6, 0x41),
  (0xc7, 0x43), (0xc8, 0x45), (0xc9, 0x45), (0xca, 0x45), (0xcb, 0x45), (0xcc, 0x49), (0xcd, 0x49),
  (0xce, 0x49), (0xcf, 0x49), (0xd0, 0x44), (0xd1, 0x4e), (0xd2, 0x4f), (0xd3, 0x4f), (0xd4, 0x4f),
  (0xd5, 0x4f), (0xd6, 0x4f), (0xd7, 0x78), (0xd8, 0x4f), (0xd9, 0x55), (0xda, 0x55), (0xdb, 0x55),
  (0xdc, 0x55), (0xdd, 0x59), (0xde, 0x50), (0xdf, 0x42), (0xe0, 0x61), (0xe1, 0x61), (0xe2, 0x61),
  (0xe3, 0x61), (0xe4, 0x61), (0xe5, 0x61), (0xe6, 0x61), (0xe7, 0x63), (0xe8, 0x65), (0xe9, 0x65),
  (0xea, 0x65), (0xeb, 0x65), (0xec, 0x69), (0xed, 0x69), (0xee, 0x69), (0xef, 0x69), (0xf0, 0x64),
  (0xf1, 0x6e), (0xf2, 0x6f), (0xf3, 0x6f), (0xf4, 0x6f), (0xf5, 0x6f), (0xf6, 0x6f), (0xf8, 0x6f),
  (0xf9, 0x75), (0xfa, 0x75), (0xfb, 0x75), (0xfc, 0x75), (0xfd, 0x79), (0xfe, 0x70), (0xff, 0x79),
  (0x100, 0x41), (0x101, 0x61), (0x102, 0x41), (0x103, 0x61), (0x104, 0x41), (0x105, 0x61),
  (0x106, 0x43), (0x107, 0x63), (0x108, 0x43), (0x109, 0x63), (0x10a, 0x43), (0x10b, 0x63),
  (0x10c, 0x43), (0x10d, 0x63), (0x10e, 0x44), (0x10f, 0x64), (0x112, 0x45), (0x113, 0x65),
  (0x114, 0x45), (0x115, 0x65), (0x116, 0x45), (0x117, 0x65), (0x118, 0x45), (0x119, 0x65),
  (0x11a, 0x45), (0x11b, 0x65), (0x11c, 0x47), (0x11d, 0x67), (0x11e, 0x47), (0x11f, 0x67),
  (0x120, 0x47), (0x121, 0x67), (0x122, 0x47), (0x123, 0x67), (0x124, 0x48), (0x125, 0x68),
  (0x128, 0x49), (0x129, 0x69), (0x12a, 0x49), (0x12b, 0x69), (0x12c, 0x49), (0x12d, 0x69),
  (0x12e, 0x49), (0x12f, 0x69), (0x130, 0x49), (0x134, 0x4a), (0x135, 0x6a), (0x136, 0x4b),
  (0x137, 0x6b), (0x139, 0x4c), (0x13a, 0x6c), (0x13b, 0x4c), (0x13c, 0x6c), (0x13d, 0x4c),
  (0x13e, 0x6c), (0x143, 0x4e), (0x144, 0x6e), (0x145, 0x4e), (0x146, 0x6e), (0x147, 0x4e),
  (0x148, 0x6e), (0x14c, 0x4f), (0x14d, 0x6f), (0x14e, 0x4f), (0x14f, 0x6f), (0x150, 0x4f),
  (0x151, 0x6f), (0x154, 0x52), (0x155, 0x72), (0x156, 0x52), (0x157, 0x72), (0x158, 0x52),
  (0x159, 0x72), (0x15a, 0x53), (0x15b, 0x73), (0x15c, 0x53), (0x15d, 0x73), (0x15e, 0x53),
  (0x15f, 0x73), (0x160, 0x53), (0x161, 0x73), (0x162, 0x54), (0x163, 0x74), (0x164, 0x54),
  (0x165, 0x74), (0x168, 0x55), (0x169, 0x75), (0x16a, 0x55), (0x16b, 0x75), (0x16c, 0x55),
  (0x16d, 0x75), (0x16e, 0x55), (0x16f, 0x75), (0x170, 0x55), (0x171, 0x75), (0x172, 0x55),
  (0x173, 0x75), (0x174, 0x57), (0x175, 0x77), (0x176, 0x59), (0x177, 0x79), (0x178, 0x59),
  (0x179, 0x5a), (0x17a, 0x7a), (0x17b, 0x5a), (0x17c, 0x7a), (0x17d, 0x5a), (0x17e, 0x7a),
  (0x1a0, 0x4f), (0x1a1, 0x6f), (0x1af, 0x55), (0x1b0, 0x75), (0x1c4, 0x44), (0x1c5, 0x44),
  (0x1c6, 0x64), (0x1cd, 0x41), (0x1ce, 0x61), (0x1cf, 0x49), (0x1d0, 0x69), (0x1d1, 0x4f),
  (0x1d2, 0x6f), (0x1d3, 0x55), (0x1d4, 0x75), (0x1d5, 0x55), (0x1d6, 0x75), (0x1d7, 0x55),
  (0x1d8, 0x75), (0x1d9, 0x55), (0x1da, 0x75), (0x1db, 0x55), (0x1dc, 0x75), (0x1de, 0x41),
  (0x1df, 0x61), (0x1e0, 0x41), (0x1e1, 0x61), (0x1e2, 0x41), (0x1e3, 0x61), (0x1e6, 0x47),
  (0x1e7, 0x67), (0x1e8, 0x4b), (0x1e9, 0x6b), (0x1ea, 0x4f), (0x1eb, 0x6f), (0x1ec, 0x4f),
  (0x1ed, 0x6f), (0x1ee, 0x1b7), (0x1ef, 0x292), (0x1f0, 0x6a), (0x1f4, 0x47), (0x1f5, 0x67),
  (0x1f8, 0x4e), (0x1f9, 0x6e), (0x1fa, 0x41), (0x1fb, 0x61), (0x1fc, 0x41), (0x1fd, 0x61),
  (0x1fe, 0x4f), (0x1ff, 0x6f), (0x200, 0x41), (0x201, 0x61), (0x202, 0x41), (0x203, 0x61),
  (0x204, 0x45), (0x205, 0x65), (0x206, 0x45), (0x207, 0x65), (0x208, 0x49), (0x209, 0x69),
  (0x20a, 0x49), (0x20b, 0x69), (0x20c, 0x4f), (0x20d, 0x6f), (0x20e, 0x4f), (0x20f, 0x6f),
  (0x210, 0x52), (0x211, 0x72), (0x212, 0x52), (0x213, 0x72), (0x214, 0x55), (0x215, 0x75),
  (0x216, 0x55), (0x217, 0x75), (0x218, 0x53), (0x219, 0x73), (0x21a, 0x54), (0x21b, 0x74),
  (0x21e, 0x48), (0x21f, 0x68), (0x226, 0x41), (0x227, 0x61), (0x228, 0x45), (0x229, 0x65),
  (0x22a, 0x4f), (0x22b, 0x6f), (0x22c, 0x4f), (0x22d, 0x6f), (0x22e, 0x4f), (0x22f, 0x6f),
  (0x230, 0x4f), (0x231, 0x6f), (0x232, 0x59), (0x233, 0x79), (0x386, 0x391), (0x388, 0x395),
  (0x389, 0x397), (0x38a, 0x399), (0x38c, 0x39f), (0x38e, 0x3a5), (0x38f, 0x3a9), (0x390, 0x3b9),
  (0x3aa, 0x399), (0x3ab, 0x3a5), (0x3ac, 0x3b1), (0x3ad, 0x3b5), (0x3ae, 0x3b7), (0x3af, 0x3b9),
  (0x3b0, 0x3c5), (0x3ca, 0x3b9), (0x3cb, 0x3c5), (0x3cc, 0x3bf), (0x3cd, 0x3c5), (0x3ce, 0x3c9),
  (0x3d3, 0x3a5), (0x3d4, 0x3a5), (0x400, 0x415), (0x401, 0x415), (0x403, 0x413), (0x407, 0x406),
  (0x40c, 0x41a), (0x40d, 0x418), (0x40e, 0x423), (0x419, 0x418), (0x439, 0x438), (0x450, 0x435),
  (0x451, 0x435), (0x453, 0x433), (0x457, 0x456), (0x45c, 0x43a), (0x45d, 0x438), (0x45e, 0x443),
  (0x476, 0x474), (0x477, 0x475), (0x4c1, 0x416), (0x4c2, 0x436), (0x4d0, 0x410), (0x4d1, 0x430),
  (0x4d2, 0x410), (0x4d3, 0x430), (0x4d6, 0x415), (0x4d7, 0x435), (0x4da, 0x4d8), (0x4db, 0x4d9),
  (0x4dc, 0x416), (0x4dd, 0x436), (0x4de, 0x417), (0x4df, 0x437), (0x4e2, 0x418), (0x4e3, 0x438),
  (0x4e4, 0x418), (0x4e5, 0x438), (0x4e6, 0x41e), (0x4e7, 0x43e), (0x4ea, 0x4e8), (0x4eb, 0x4e9),
  (0x4ec, 0x42d), (0x4ed, 0x44d), (0x4ee, 0x423), (0x4ef, 0x443), (0x4f0, 0x423), (0x4f1, 0x443),
  (0x4f2, 0x423), (0x4f3, 0x443), (0x4f4, 0x427), (0x4f5, 0x447), (0x4f8, 0x42b), (0x4f9, 0x44b),
  (0x1e00, 0x41), (0x1e01, 0x61), (0x1e02, 0x42), (0x1e03, 0x62), (0x1e04, 0x42), (0x1e05, 0x62),
  (0x1e06, 0x42), (0x1e07, 0x62), (0x1e08, 0x43), (0x1e09, 0x63), (0x1e0a, 0x44), (0x1e0b, 0x64),
  (0x1e0c, 0x44), (0x1e0d, 0x64), (0x1e0e, 0x44), (0x1e0f, 0x64), (0x1e10, 0x44), (0x1e11, 0x64),
  (0x1e12, 0x44), (0x1e13, 0x64), (0x1e14, 0x45), (0x1e15, 0x65), (0x1e16, 0x45), (0x1e17, 0x65),
  (0x1e18, 0x45), (0x1e19, 0x65), (0x1e1a, 0x45), (0x1e1b, 0x65), (0x1e1c, 0x45), (0x1e1d, 0x65),
  (0x1e1e, 0x46), (0x1e1f, 0x66), (0x1e20, 0x47), (0x1e21, 0x67), (0x1e22, 0x48), (0x1e23, 0x68),
  (0x1e24, 0x48), (0x1e25, 0x68), (0x1e26, 0x48), (0x1e27, 0x68), (0x1e28, 0x48), (0x1e29, 0x68),
  (0x1e2a, 0x48), (0x1e2b, 0x68), (0x1e2c, 0x49), (0x1e2d, 0x69), (0x1e2e, 0x49), (0x1e2f, 0x69),
  (0x1e30, 0x4b), (0x1e31, 0x6b), (0x1e32, 0x4b), (0x1e33, 0x6b), (0x1e34, 0x4b), (0x1e35, 0x6b),
  (0x1e36, 0x4c), (0x1e37, 0x6c), (0x1e38, 0x4c), (0x1e39, 0x6c), (0x1e3a, 0x4c), (0x1e3b, 0x6c),
  (0x1e3c, 0x4c), (0x1e3d, 0x6c), (0x1e3e, 0x4d), (0x1e3f, 0x6d), (0x1e40, 0x4d), (0x1e41, 0x6d),
  (0x1e42, 0x4d), (0x1e43, 0x6d), (0x1e44, 0x4e), (0x1e45, 0x6e), (0x1e46, 0x4e), (0x1e47, 0x6e),
  (0x1e48, 0x4e), (0x1e49, 0x6e), (0x1e4a, 0x4e), (0x1e4b, 0x6e), (0x1e4c, 0x4f), (0x1e4d, 0x6f),
  (0x1e4e, 0x4f), (0x1e4f, 0x6f), (0x1e50, 0x4f), (0x1e51, 0x6f), (0x1e52, 0x4f), (0x1e53, 0x6f),
  (0x1e54, 0x50), (0x1e55, 0x70), (0x1e56, 0x50), (0x1e57, 0x70), (0x1e58, 0x52), (0x1e59, 0x72),
  (0x1e5a, 0x52), (0x1e5b, 0x72), (0x1e5c, 0x52), (0x1e5d, 0x72), (0x1e5e, 0x52), (0x1e5f, 0x72),
  (0x1e60, 0x53), (0x1e61, 0x73), (0x1e62, 0x53), (0x1e63, 0x73), (0x1e64, 0x53), (0x1e65, 0x73),
  (0x1e66, 0x53), (0x1e67, 0x73), (0x1e68, 0x53), (0x1e69, 0x73), (0x1e6a, 0x54), (0x1e6b, 0x74),
  (0x1e6c, 0x54), (0x1e6d, 0x74), (0x1e6e, 0x54), (0x1e6f, 0x74), (0x1e70, 0x54), (0x1e71, 0x74),
  (0x1e72, 0x55), (0x1e73, 0x75), (0x1e74, 0x55), (0x1e75, 0x75), (0x1e76, 0x55), (0x1e77, 0x75),
  (0x1e78, 0x55), (0x1e79, 0x75), (0x1e7a, 0x55), (0x1e7b, 0x75), (0x1e7c, 0x56), (0x1e7d, 0x76),
  (0x1e7e, 0x56), (0x1e7f, 0x76), (0x1e80, 0x57), (0x1e81, 0x77), (0x1e82, 0x57), (0x1e83, 0x77),
  (0x1e84, 0x57), (0x1e85, 0x77), (0x1e86, 0x57), (0x1e87, 0x77), (0x1e88, 0x57), (0x1e89, 0x77),
  (0x1e8a, 0x58), (0x1e8b, 0x78), (0x1e8c, 0x58), (0x1e8d, 0x78), (0x1e8e, 0x59), (0x1e8f, 0x79),
  (0x1e90, 0x5a), (0x1e91, 0x7a), (0x1e92, 0x5a), (0x1e93, 0x7a), (0x1e94, 0x5a), (0x1e95, 0x7a),
  (0x1e96, 0x68), (0x1e97, 0x74), (0x1e98, 0x77), (0x1e99, 0x79), (0x1e9b, 0x73), (0x1ea0, 0x41),
  (0x1ea1, 0x61), (0x1ea2, 0x41), (0x1ea3, 0x61), (0x1ea4, 0x41), (0x1ea5, 0x61), (0x1ea6, 0x41),
  (0x1ea7, 0x61), (0x1ea8, 0x41), (0x1ea9, 0x61), (0x1eaa, 0x41), (0x1eab, 0x61), (0x1eac, 0x41),
  (0x1ead, 0x61), (0x1eae, 0x41), (0x1eaf, 0x61), (0x1eb0, 0x41), (0x1eb1, 0x61), (0x1eb2, 0x41),
  (0x1eb3, 0x61), (0x1eb4, 0x41), (0x1eb5, 0x61), (0x1eb6, 0x41), (0x1eb7, 0x61), (0x1eb8, 0x45),
  (0x1eb9, 0x65), (0x1eba, 0x45), (0x1ebb, 0x65), (0x1ebc, 0x45), (0x1ebd, 0x65), (0x1ebe, 0x45),
  (0x1ebf, 0x65), (0x1ec0, 0x45), (0x1ec1, 0x65), (0x1ec2, 0x45), (0x1ec3, 0x65), (0x1ec4, 0x45),
  (0x1ec5, 0x65), (0x1ec6, 0x45), (0x1ec7, 0x65), (0x1ec8, 0x49), (0x1ec9, 0x69), (0x1eca, 0x49),
  (0x1ecb, 0x69), (0x1ecc, 0x4f), (0x1ecd, 0x6f), (0x1ece, 0x4f), (0x1ecf, 0x6f), (0x1ed0, 0x4f),
  (0x1ed1, 0x6f), (0x1ed2, 0x4f), (0x1ed3, 0x6f), (0x1ed4, 0x4f), (0x1ed5, 0x6f), (0x1ed6, 0x4f),
  (0x1ed7, 0x6f), (0x1ed8, 0x4f), (0x1ed9, 0x6f), (0x1eda, 0x4f), (0x1edb, 0x6f), (0x1edc, 0x4f),
  (0x1edd, 0x6f), (0x1ede, 0x4f), (0x1edf, 0x6f), (0x1ee0, 0x4f), (0x1ee1, 0x6f), (0x1ee2, 0x4f),
  (0x1ee3, 0x6f), (0x1ee4, 0x55), (0x1ee5, 0x75), (0x1ee6, 0x55), (0x1ee7, 0x75), (0x1ee8, 0x55),
  (0x1ee9, 0x75), (0x1eea, 0x55), (0x1eeb, 0x75), (0x1eec, 0x55), (0x1eed, 0x75), (0x1eee, 0x55),
  (0x1eef, 0x75), (0x1ef0, 0x55), (0x1ef1, 0x75), (0x1ef2, 0x59), (0x1ef3, 0x79), (0x1ef4, 0x59),
  (0x1ef5, 0x79), (0x1ef6, 0x59), (0x1ef7, 0x79), (0x1ef8, 0x59), (0x1ef9, 0x79), (0x1f00, 0x3b1),
  (0x1f01, 0x3b1), (0x1f02, 0x3b1), (0x1f03, 0x3b1), (0x1f04, 0x3b1), (0x1f05, 0x3b1),
  (0x1f06, 0x3b1), (0x1f07, 0x3b1), (0x1f08, 0x391), (0x1f09, 0x391), (0x1f0a, 0x391),
  (0x1f0b, 0x391), (0x1f0c, 0x391), (0x1f0d, 0x391), (0x1f0e, 0x391), (0x1f0f, 0x391),
  (0x1f10, 0x3b5), (0x1f11, 0x3b5), (0x1f12, 0x3b5), (0x1f13, 0x3b5), (0x1f14, 0x3b5),
  (0x1f15, 0x3b5), (0x1f18, 0x395), (0x1f19, 0x395), (0x1f1a, 0x395), (0x1f1b, 0x395),
  (0x1f1c, 0x395), (0x1f1d, 0x395), (0x1f20, 0x3b7), (0x1f21, 0x3b7), (0x1f22, 0x3b7),
  (0x1f23, 0x3b7), (0x1f24, 0x3b7), (0x1f25, 0x3b7), (0x1f26, 0x3b7), (0x1f27, 0x3b7),
  (0x1f28, 0x397), (0x1f29, 0x397), (0x1f2a, 0x397), (0x1f2b, 0x397), (0x1f2c, 0x397),
  (0x1f2d, 0x397), (0x1f2e, 0x397), (0x1f2f, 0x397), (0x1f30, 0x3b9), (0x1f31, 0x3b9),
  (0x1f32, 0x3b9), (0x1f33, 0x3b9), (0x1f34, 0x3b9), (0x1f35, 0x3b9), (0x1f36, 0x3b9),
  (0x1f37, 0x3b9), (0x1f38, 0x399), (0x1f39, 0x399), (0x1f3a, 0x399), (0x1f3b, 0x399),
  (0x1f3c, 0x399), (0x1f3d, 0x399), (0x1f3e, 0x399), (0x1f3f, 0x399), (0x1f40, 0x3bf),
  (0x1f41, 0x3bf), (0x1f42, 0x3bf), (0x1f43, 0x3bf), (0x1f44, 0x3bf), (0x1f45, 0x3bf),
  (0x1f48, 0x39f), (0x1f49, 0x39f), (0x1f4a, 0x39f), (0x1f4b, 0x39f), (0x1f4c, 0x39f),
  (0x1f4d, 0x39f), (0x1f50, 0x3c5), (0x1f51, 0x3c5), (0x1f52, 0x3c5), (0x1f53, 0x3c5),
  (0x1f54, 0x3c5), (0x1f55, 0x3c5), (0x1f56, 0x3c5), (0x1f57, 0x3c5), (0x1f59, 0x3a5),
  (0x1f5b, 0x3a5), (0x1f5d, 0x3a5), (0x1f5f, 0x3a5), (0x1f60, 0x3c9), (0x1f61, 0x3c9),
  (0x1f62, 0x3c9), (0x1f63, 0x3c9), (0x1f64, 0x3c9), (0x1f65, 0x3c9), (0x1f66, 0x3c9),
  (0x1f67, 0x3c9), (0x1f68, 0x3a9), (0x1f69, 0x3a9), (0x1f6a, 0x3a9), (0x1f6b, 0x3a9),
  (0x1f6c, 0x3a9), (0x1f6d, 0x3a9), (0x1f6e, 0x3a9), (0x1f6f, 0x3a9), (0x1f70, 0x3b1),
  (0x1f71, 0x3b1), (0x1f72, 0x3b5), (0x1f73, 0x3b5), (0x1f74, 0x3b7), (0x1f75, 0x3b7),
  (0x1f76, 0x3b9), (0x1f77, 0x3b9), (0x1f78, 0x3bf), (0x1f79, 0x3bf), (0x1f7a, 0x3c5),
  (0x1f7b, 0x3c5), (0x1f7c, 0x3c9), (0x1f7d, 0x3c9), (0x1f80, 0x3b1), (0x1f81, 0x3b1),
  (0x1f82, 0x3b1), (0x1f83, 0x3b1), (0x1f84, 0x3b1), (0x1f85, 0x3b1), (0x1f86, 0x3b1),
  (0x1f87, 0x3b1), (0x1f88, 0x391), (0x1f89, 0x391), (0x1f8a, 0x391), (0x1f8b, 0x391),
  (0x1f8c, 0x391), (0x1f8d, 0x391), (0x1f8e, 0x391), (0x1f8f, 0x391), (0x1f90, 0x3b7),
  (0x1f91, 0x3b7), (0x1f92, 0x3b7), (0x1f93, 0x3b7), (0x1f94, 0x3b7), (0x1f95, 0x3b7),
  (0x1f96, 0x3b7), (0x1f97, 0x3b7), (0x1f98, 0x397), (0x1f99, 0x397), (0x1f9a, 0x397),
  (0x1f9b, 0x397), (0x1f9c, 0x397), (0x1f9d, 0x397), (0x1f9e, 0x397), (0x1f9f, 0x397),
  (0x1fa0, 0x3c9), (0x1fa1, 0x3c9), (0x1fa2, 0x3c9), (0x1fa3, 0x3c9), (0x1fa4, 0x3c9),
  (0x1fa5, 0x3c9), (0x1fa6, 0x3c9), (0x1fa7, 0x3c9), (0x1fa8, 0x3a9), (0x1fa9, 0x3a9),
  (0x1faa, 0x3a9), (0x1fab, 0x3a9), (0x1fac, 0x3a9), (0x1fad, 0x3a9), (0x1fae, 0x3a9),
  (0x1faf, 0x3a9), (0x1fb0, 0x3b1), (0x1fb1, 0x3b1), (0x1fb2, 0x3b1), (0x1fb3, 0x3b1),
  (0x1fb4, 0x3b1), (0x1fb6, 0x3b1), (0x1fb7, 0x3b1), (0x1fb8, 0x391), (0x1fb9, 0x391),
  (0x1fba, 0x391), (0x1fbb, 0x391), (0x1fbc, 0x391), (0x1fc2, 0x3b7), (0x1fc3, 0x3b7),
  (0x1fc4, 0x3b7), (0x1fc6, 0x3b7), (0x1fc7, 0x3b7), (0x1fc8, 0x395), (0x1fc9, 0x395),
  (0x1fca, 0x397), (0x1fcb, 0x397), (0x1fcc, 0x397), (0x1fd0, 0x3b9), (0x1fd1, 0x3b9),
  (0x1fd2, 0x3b9), (0x1fd3, 0x3b9), (0x1fd6, 0x3b9), (0x1fd7, 0x3b9), (0x1fd8, 0x399),
  (0x1fd9, 0x399), (0x1fda, 0x399), (0x1fdb, 0x399), (0x1fe0, 0x3c5), (0x1fe1, 0x3c5),
  (0x1fe2, 0x3c5), (0x1fe3, 0x3c5), (0x1fe4, 0x3c1), (0x1fe5, 0x3c1), (0x1fe6, 0x3c5),
  (0x1fe7, 0x3c5), (0x1fe8, 0x3a5), (0x1fe9, 0x3a5), (0x1fea, 0x3a5), (0x1feb, 0x3a5),
  (0x1fec, 0x3a1), (0x1ff2, 0x3c9), (0x1ff3, 0x3c9), (0x1ff4, 0x3c9), (0x1ff6, 0x3c9),
  (0x1ff7, 0x3c9), (0x1ff8, 0x39f), (0x1ff9, 0x39f), (0x1ffa, 0x3a9), (0x1ffb, 0x3a9),
  (0x1ffc, 0x3a9), (0x2010, 0x2d), (0x2012, 0x2d), (0x2013, 0x2d), (0x2014, 0x2d), (0x2015, 0x2d),
  (0x2018, 0x27), (0x2019, 0x27), (0x201c, 0x22), (0x201d, 0x22), (0x2026, 0x2e), (0x2032, 0x27),
  (0x2033, 0x22), (0x212b, 0x41), (0x219a, 0x2190), (0x219b, 0x2192), (0x21ae, 0x2194),
  (0x21cd, 0x21d0), (0x21ce, 0x21d4), (0x21cf, 0x21d2), (0x2204, 0x2203), (0x2209, 0x2208),
  (0x220c, 0x220b), (0x2212, 0x2d), (0x2224, 0x2223), (0x2226, 0x2225), (0x2241, 0x223c),
  (0x2244, 0x2243), (0x2247, 0x2245), (0x2249, 0x2248), (0x2260, 0x3d), (0x2262, 0x2261),
  (0x226d, 0x224d), (0x226e, 0x3c), (0x226f, 0x3e), (0x2270, 0x2264), (0x2271, 0x2265),
  (0x2274, 0x2272), (0x2275, 0x2273), (0x2278, 0x2276), (0x2279, 0x2277), (0x2280, 0x227a),
  (0x2281, 0x227b), (0x2284, 0x2282), (0x2285, 0x2283), (0x2288, 0x2286), (0x2289, 0x2287),
  (0x22ac, 0x22a2), (0x22ad, 0x22a8), (0x22ae, 0x22a9), (0x22af, 0x22ab), (0x22e0, 0x227c),
  (0x22e1, 0x227d), (0x22e2, 0x2291), (0x22e3, 0x2292), (0x22ea, 0x22b2), (0x22eb, 0x22b3),
  (0x22ec, 0x22b4), (0x22ed, 0x22b5), (0x2adc, 0x2add), (0x3003, 0x22)]

/-- Both columns are characters, and no base is the terminator. -/
theorem unidecompMap_valid {e : Uchar × Uchar} (he : e ∈ unidecompMap) :
    e.1 ≤ 0x10ffff ∧ e.2 ≤ 0x10ffff ∧ e.2 ≠ 0 := by
  have hall : unidecompMap.all fun e => e.1 ≤ 0x10ffff && e.2 ≤ 0x10ffff && e.2 ≠ 0 := by
    decide +kernel
  simpa [and_assoc] using List.all_eq_true.mp hall e he

/-- The binary search, between two places of the table. -/
def baseLoop (ch : Uchar) : Nat → Nat → Nat → Uchar
  | 0, _, _ => ch
  | fuel + 1, first, last =>
    let half := (first + last) / 2
    match unidecompMap[half]? with
    | none => ch
    | some (composed, base) =>
      if ch = composed then base
      else if half = first then ch
      else if ch > composed then baseLoop ch fuel half last
      else baseLoop ch fuel first half

def getBaseFromComposed (ch : Uchar) : Uchar :=
  if ch < (unidecompMap.headD (0, 0)).1 || ch > (unidecompMap.getLastD (0, 0)).1 then ch
  else baseLoop ch unidecompMap.length 0 unidecompMap.length

theorem baseLoop_cases (ch : Uchar) (fuel first last : Nat) :
    baseLoop ch fuel first last = ch ∨ (ch, baseLoop ch fuel first last) ∈ unidecompMap := by
  induction fuel generalizing first last with
  | zero => exact .inl rfl
  | succ fuel ih =>
    unfold baseLoop
    dsimp only
    split
    · exact .inl rfl
    · rename_i composed base hget
      split
      · rename_i heq
        subst heq
        exact .inr (List.mem_of_getElem? hget)
      split
      · exact .inl rfl
      split
      · exact ih ..
      · exact ih ..

/-- A character is its own base or one of the table. -/
theorem getBaseFromComposed_cases (ch : Uchar) :
    getBaseFromComposed ch = ch ∨ (ch, getBaseFromComposed ch) ∈ unidecompMap := by
  unfold getBaseFromComposed
  split
  · exact .inl rfl
  · exact baseLoop_cases ..

end GracefulMusic
